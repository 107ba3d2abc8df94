import Orbis.WorkQueue
import Orbis.WalletMoves

/-!
# New blocks at a consumer

A consumer gets complete blocks, one thread puts their transactions into a
queue, and worker threads look for outputs of the accounts in them. When all
workers have returned without an error, the transactions are sorted by height
and position and processed one after the other. Neither the number of workers
nor the order of their steps changes what is processed.
-/

set_option autoImplicit false

namespace Orbis.WalletBlocks

open ChainTypes WalletTransfers WalletMoves WorkQueue

section Model

def nullPublicKey : PublicKey := 0

structure CompleteBlock where
  block : Option Block
  transactions : List TransactionReader

structure Item where
  blockInfo : TransactionBlockInfo
  tx : TransactionReader

inductive Producer where
  | blocks (height : ℕ) (rest : List CompleteBlock)
  | transactions (blockInfo : TransactionBlockInfo) (txs : List TransactionReader)
      (rest : List CompleteBlock)

/-- What ends the work on a transaction: an error code, which raises
`stopProcessing`, or an exception. -/
inductive Failure where
  | code (ec : ℕ)
  | exception
  deriving DecidableEq

variable (syncStartTimestamp : UInt64)

def skipsBlock (block : Block) : Bool :=
  decide (syncStartTimestamp ≠ 0) && decide (block.timestamp < syncStartTimestamp)

def pushNext (stopProcessing : Bool) : Producer → Action Producer Item
  | .blocks _ [] => .close
  | .blocks height (complete :: rest) =>
    if stopProcessing then .close
    else match complete.block with
      | none => .skip (.blocks (height + 1) rest)
      | some block =>
        if skipsBlock syncStartTimestamp block then .skip (.blocks (height + 1) rest)
        else .skip (.transactions ⟨height, block.timestamp, 0⟩ complete.transactions rest)
  | .transactions blockInfo [] rest => .skip (.blocks (blockInfo.height + 1) rest)
  | .transactions blockInfo (tx :: txs) rest =>
    let next := .transactions
      { blockInfo with transactionIndex := blockInfo.transactionIndex + 1 } txs rest
    if tx.transactionPublicKey = nullPublicKey then .skip next else .push ⟨blockInfo, tx⟩ next

variable {Info : Type} (preprocessOutputs : Item → Except Failure Info → Prop)
  (hardwareConcurrency : ℕ)

def workers : ℕ := if hardwareConcurrency = 0 then 2 else hardwareConcurrency

def program : Program Producer Item Info Failure where
  capacity := workers hardwareConcurrency * 2
  next := pushNext syncStartTimestamp
  work := preprocessOutputs
  raises
    | .code _ => true
    | .exception => false

def place (item : Item) : ℕ ×ₗ ℕ :=
  toLex (item.blockInfo.height, item.blockInfo.transactionIndex)

/-- The threads have run and none has failed; `std::sort` leaves some sorted
order, and this is the sequence of the calls of `processTransaction`. -/
structure OnNewBlocks (blocks : List CompleteBlock) (startHeight : ℕ)
    (processed : List (Item × Info)) : Prop where
  ends : ∃ s, Reaches (program syncStartTimestamp preprocessOutputs hardwareConcurrency)
      (start (.blocks startHeight blocks) (workers hardwareConcurrency)) s ∧
    (∀ w ∈ s.workers, w = .finished none) ∧ processed.Perm s.collected
  sorted : processed.Pairwise fun a b => place a.1 ≤ place b.1

end Model

section Expected

variable (syncStartTimestamp : UInt64)

def blockItems (blockInfo : TransactionBlockInfo) : List TransactionReader → List Item
  | [] => []
  | tx :: txs =>
    let others := blockItems
      { blockInfo with transactionIndex := blockInfo.transactionIndex + 1 } txs
    if tx.transactionPublicKey = nullPublicKey then others else ⟨blockInfo, tx⟩ :: others

def completeItems (height : ℕ) (complete : CompleteBlock) : List Item :=
  match complete.block with
  | none => []
  | some block =>
    if skipsBlock syncStartTimestamp block then []
    else blockItems ⟨height, block.timestamp, 0⟩ complete.transactions

def expected : ℕ → List CompleteBlock → List Item
  | _, [] => []
  | height, complete :: rest =>
    completeItems syncStartTimestamp height complete ++ expected (height + 1) rest

variable {syncStartTimestamp} {Info : Type} {preprocessOutputs : Item → Except Failure Info → Prop}
  {hardwareConcurrency : ℕ} {bi : TransactionBlockInfo} {ht : ℕ}
  {txs : List TransactionReader} {item : Item} {bs rest : List CompleteBlock}

theorem transactions_produces {l : List Item}
    (hr : Produces (program syncStartTimestamp preprocessOutputs hardwareConcurrency)
      (.blocks (bi.height + 1) rest) l) :
    Produces (program syncStartTimestamp preprocessOutputs hardwareConcurrency)
      (.transactions bi txs rest) (blockItems bi txs ++ l) := by
  induction txs generalizing bi with
  | nil => exact .skip rfl hr
  | cons tx _ ih =>
    have hlat := @ih { bi with transactionIndex := bi.transactionIndex + 1 } hr
    rw [blockItems]
    by_cases hn : tx.transactionPublicKey = nullPublicKey
    · rw [if_pos hn]
      exact .skip (if_pos hn) hlat
    · rw [if_neg hn]
      exact .push (if_neg hn) hlat

theorem blocks_produces (bks : List CompleteBlock) :
    Produces (program syncStartTimestamp preprocessOutputs hardwareConcurrency)
      (.blocks ht bks) (expected syncStartTimestamp ht bks) := by
  induction bks generalizing ht with
  | nil => exact .close rfl
  | cons cpl rest ih =>
    have hn : pushNext syncStartTimestamp false (.blocks ht (cpl :: rest)) =
        match cpl.block with
        | none => .skip (.blocks (ht + 1) rest)
        | some blk =>
          if skipsBlock syncStartTimestamp blk then .skip (.blocks (ht + 1) rest)
          else .skip (.transactions ⟨ht, blk.timestamp, 0⟩ cpl.transactions rest) :=
      rfl
    rw [expected, completeItems]
    cases hblk : cpl.block with
    | none =>
      rw [hblk] at hn
      exact .skip hn ih
    | some blk =>
      rw [hblk] at hn
      dsimp only at hn ⊢
      by_cases hs : skipsBlock syncStartTimestamp blk = true
      · rw [if_pos hs] at hn ⊢
        exact .skip hn ih
      · rw [if_neg hs] at hn ⊢
        exact .skip hn (transactions_produces ih)

theorem mem_blockItems : item ∈ blockItems bi txs ↔ ∃ j tx, txs[j]? = some tx ∧
    tx.transactionPublicKey ≠ nullPublicKey ∧ item = ⟨{ bi with
      transactionIndex := bi.transactionIndex + j }, tx⟩ := by
  induction txs generalizing bi with
  | nil => simp [blockItems]
  | cons tx txs ih =>
    have hc : item ∈ blockItems bi (tx :: txs) ↔
        (tx.transactionPublicKey ≠ nullPublicKey ∧ item = ⟨bi, tx⟩) ∨ item ∈ blockItems
            { bi with transactionIndex := bi.transactionIndex + 1 } txs := by
      rw [blockItems]
      by_cases hn : tx.transactionPublicKey = nullPublicKey
      · simp [hn]
      · simp [hn]
    rw [hc, ih]
    constructor
    · rintro (⟨hkey,rfl⟩ | ⟨j,o,hoth,hkey,rfl⟩)
      · exact ⟨0,tx,rfl,hkey,rfl⟩
      · refine ⟨j + 1,o,hoth,hkey,?_⟩
        rw [Nat.add_assoc, Nat.add_comm 1 j]
    · rintro ⟨j,o,hoth,hkey,rfl⟩
      cases j with
      | zero =>
        cases hoth
        exact .inl ⟨hkey,rfl⟩
      | succ j =>
        refine .inr ⟨j,o,hoth,hkey,?_⟩
        rw [Nat.add_assoc, Nat.add_comm 1 j]

def Wanted (syncStartTimestamp : UInt64) (startHeight : ℕ) (blocks : List CompleteBlock)
    (item : Item) : Prop :=
  ∃ i complete block j tx, blocks[i]? = some complete ∧ complete.block = some block ∧
    syncStartTimestamp ≤ block.timestamp ∧ complete.transactions[j]? = some tx ∧
    tx.transactionPublicKey ≠ nullPublicKey ∧ item = ⟨⟨startHeight + i, block.timestamp, j⟩, tx⟩

theorem mem_completeItems {cpl : CompleteBlock} :
    item ∈ completeItems syncStartTimestamp ht cpl ↔ ∃ blk j tx,
      cpl.block = some blk ∧ syncStartTimestamp ≤ blk.timestamp ∧
      cpl.transactions[j]? = some tx ∧ tx.transactionPublicKey ≠ nullPublicKey ∧
      item = ⟨⟨ht, blk.timestamp, j⟩, tx⟩ := by
  unfold completeItems
  cases hblk : cpl.block with
  | none => simp
  | some blk =>
    have hs : skipsBlock syncStartTimestamp blk = true ↔ ¬ syncStartTimestamp ≤ blk.timestamp := by
      rw [skipsBlock, Bool.and_eq_true, decide_eq_true_iff, decide_eq_true_iff, UInt64.not_le]
      refine and_iff_right_of_imp ?_
      rintro hlt rfl
      exact UInt64.not_lt_zero hlt
    dsimp only
    by_cases hold : syncStartTimestamp ≤ blk.timestamp
    · rw [if_neg fun hsk => hs.mp hsk hold, mem_blockItems]
      simp [hold]
    · rw [if_pos (hs.mpr hold)]
      simp [hold]

theorem mem_expected : item ∈ expected syncStartTimestamp ht bs ↔
    Wanted syncStartTimestamp ht bs item := by
  induction bs generalizing ht with
  | nil => simp [expected, Wanted]
  | cons cpl _ ih =>
    rw [expected, List.mem_append, ih, mem_completeItems]
    constructor
    · rintro (⟨blk,j,tx,hw⟩ | ⟨i,o,blk,j,tx,hoth,hblk,hold,htx,hkey,rfl⟩)
      · exact ⟨0,cpl,blk,j,tx,rfl,hw⟩
      · refine ⟨i + 1,o,blk,j,tx,hoth,hblk,hold,htx,hkey,?_⟩
        rw [Nat.add_assoc, Nat.add_comm 1 i]
    · rintro ⟨i,o,blk,j,tx,hoth,hblk,hold,htx,hkey,rfl⟩
      cases i with
      | zero =>
        cases hoth
        exact .inl ⟨blk,j,tx,hblk,hold,htx,hkey,rfl⟩
      | succ i =>
        refine .inr ⟨i,o,blk,j,tx,hoth,hblk,hold,htx,hkey,?_⟩
        rw [Nat.add_assoc, Nat.add_comm 1 i]

theorem blockItems_ordered : (blockItems bi txs).Pairwise fun a b => place a < place b := by
  induction txs generalizing bi with
  | nil => exact .nil
  | cons _ _ ih =>
    rw [blockItems]
    split_ifs
    · exact ih
    · refine List.pairwise_cons.mpr ⟨?_,ih⟩
      intro o hoth
      obtain ⟨j,_,-,-,rfl⟩ := mem_blockItems.mp hoth
      apply Prod.Lex.lt_iff.mpr
      right
      exact ⟨rfl,by show bi.transactionIndex < bi.transactionIndex + 1 + j; omega⟩

theorem expected_ordered : (expected syncStartTimestamp ht bs).Pairwise
    fun a b => place a < place b := by
  induction bs generalizing ht with
  | nil => exact .nil
  | cons cpl _ ih =>
    rw [expected, List.pairwise_append]
    refine ⟨?_,ih,?_⟩
    · unfold completeItems
      cases cpl.block with
      | none => exact .nil
      | some _ =>
        dsimp only
        split_ifs
        · exact .nil
        · exact blockItems_ordered
    · intro a ha b hb
      obtain ⟨blk,_,_,-,-,-,-,rfl⟩ := mem_completeItems.mp ha
      obtain ⟨i,_,_,_,_,-,-,-,-,-,rfl⟩ := mem_expected.mp hb
      apply Prod.Lex.lt_iff.mpr
      left
      show ht < ht + 1 + i
      omega

end Expected

/-- Whatever the interleaving and the number of workers, a run that ends without
an error processes the transactions with a public key of the blocks with a body
that are not older than the start, each once and in the order of the chain. -/
theorem processed_expected (syncStartTimestamp : UInt64) {Info : Type}
    (preprocessOutputs : Item → Except Failure Info → Prop) (hardwareConcurrency : ℕ)
    (blocks : List CompleteBlock) (startHeight : ℕ) {processed : List (Item × Info)}
    (h : OnNewBlocks syncStartTimestamp preprocessOutputs hardwareConcurrency blocks startHeight
      processed) : processed.map Prod.fst = expected syncStartTimestamp startHeight blocks ∧
    (∀ item, item ∈ expected syncStartTimestamp startHeight blocks ↔
      Wanted syncStartTimestamp startHeight blocks item) ∧
    ((expected syncStartTimestamp startHeight blocks).Pairwise fun a b => place a < place b) ∧
    ∀ r ∈ processed, preprocessOutputs r.1 (.ok r.2) := by
  obtain ⟨⟨_,hrun,hend,hp⟩,hsrt⟩ := h
  have hn : 0 < workers hardwareConcurrency := by
    unfold workers
    split_ifs <;> omega
  obtain ⟨hits,hre⟩ := collected_perm (blocks_produces blocks) hn hrun hend
  refine ⟨?_,fun _ => mem_expected,expected_ordered,fun r hr => hre r (hp.mem_iff.mp hr)⟩
  have hs : (processed.map Prod.fst).Perm (expected syncStartTimestamp startHeight blocks) :=
    (hp.map Prod.fst).trans hits
  have hpls : ((expected syncStartTimestamp startHeight blocks).map place).Nodup :=
    List.pairwise_map.mpr (expected_ordered.imp fun hlt => hlt.ne)
  have han : ∀ a b, a ∈ processed.map Prod.fst →
      b ∈ expected syncStartTimestamp startHeight blocks → place a ≤ place b →
      place b ≤ place a → a = b := by
    intro a b ha hb hab hba
    exact List.inj_on_of_nodup_map hpls (hs.mem_iff.mp ha) hb (hab.antisymm hba)
  exact hs.eq_of_pairwise han (List.pairwise_map.mpr hsrt) (expected_ordered.imp fun hlt => hlt.le)

theorem sampleBlock_signed : ([] : List (List Signature)).map List.length =
    ([] : List ChainTypes.TransactionInput).map getSignaturesCount := rfl

def sampleBlock (timestamp : UInt64) : Block :=
  ⟨1, 0, timestamp, 0, 0, ⟨⟨1, 0, [], [], []⟩, [], sampleBlock_signed⟩, []⟩

def keylessReader : TransactionReader :=
  { sampleReader 2 [] with transactionPublicKey := nullPublicKey }

def sampleBlocks : List CompleteBlock :=
  [⟨some (sampleBlock 5), [sampleReader 1 [], keylessReader, sampleReader 3 []]⟩,
    ⟨some (sampleBlock 2), [sampleReader 4 []]⟩, ⟨none, [sampleReader 5 []]⟩,
    ⟨some (sampleBlock 6), [sampleReader 6 []]⟩]

def sampleItems : List Item :=
  [⟨⟨3, 5, 0⟩, sampleReader 1 []⟩, ⟨⟨3, 5, 2⟩, sampleReader 3 []⟩, ⟨⟨6, 6, 0⟩, sampleReader 6 []⟩]

def sampleWork (_ : Item) (outcome : Except Failure Unit) : Prop := outcome = .ok ()

theorem sample_ends :
    OnNewBlocks 4 sampleWork 2 sampleBlocks 3 (sampleItems.map fun item => (item, ())) where
  ends := by
    -- the second worker does two transactions while the first one holds its own
    refine ⟨_,.head (.skip rfl rfl) (.head (.push rfl rfl rfl (by decide))
      (.head (.enter (c := ⟨[], .ready, [_]⟩) rfl rfl rfl)
      (.head (.enter (c := ⟨[_], .ready, []⟩) rfl rfl rfl)
      (.head (.pop (c := ⟨[], .waiting, [_]⟩) rfl rfl rfl)
      (.head (.skip rfl rfl) (.head (.push rfl rfl rfl (by decide))
      (.head (.pop (c := ⟨[_], .waiting, []⟩) rfl rfl rfl)
      (.head (.skip rfl rfl) (.head (.skip rfl rfl) (.head (.skip rfl rfl) (.head (.skip rfl rfl)
      (.head (.push rfl rfl rfl (by decide))
      (.head (.succeed (c := ⟨[_], .holding _, []⟩) rfl rfl rfl)
      (.head (.append (c := ⟨[_], .appending _ _, []⟩) rfl rfl)
      (.head (.enter (c := ⟨[_], .ready, []⟩) rfl rfl rfl)
      (.head (.pop (c := ⟨[_], .waiting, []⟩) rfl rfl rfl)
      (.head (.succeed (c := ⟨[_], .holding _, []⟩) rfl rfl rfl)
      (.head (.append (c := ⟨[_], .appending _ _, []⟩) rfl rfl)
      (.head (.succeed (c := ⟨[], .holding _, [_]⟩) rfl rfl rfl)
      (.head (.append (c := ⟨[], .appending _ _, [_]⟩) rfl rfl)
      (.head (.skip rfl rfl) (.head (.close rfl rfl)
      (.head (.enter (c := ⟨[], .ready, [_]⟩) rfl rfl rfl)
      (.head (.exhaust (c := ⟨[], .waiting, [_]⟩) rfl rfl rfl rfl)
      (.head (.enter (c := ⟨[_], .ready, []⟩) rfl rfl rfl)
      (.head (.exhaust (c := ⟨[_], .waiting, []⟩) rfl rfl rfl rfl)
      .refl)))))))))))))))))))))))))),?_,?_⟩
    · intro w hw
      rcases List.mem_cons.mp hw with rfl | hw
      · rfl
      · exact List.mem_singleton.mp hw
    · exact @List.perm_append_comm _ [_] [_, _]
  sorted := by
    have hord : (expected 4 3 sampleBlocks).Pairwise fun a b => place a < place b :=
      expected_ordered
    exact List.pairwise_map.mpr (hord.imp le_of_lt)

theorem processed_expected_sample :
    OnNewBlocks 4 sampleWork 2 sampleBlocks 3 (sampleItems.map fun item => (item, ())) ∧
      expected 4 3 sampleBlocks = sampleItems :=
  ⟨sample_ends,(processed_expected 4 sampleWork 2 sampleBlocks 3 sample_ends).1.symm⟩

end Orbis.WalletBlocks
