import Orbis.WalletBlocks
import Orbis.WalletConsumer

/-!
# The transactions of new blocks at the subscriptions

When the search for outputs has ended without an error, the consumer hands the
transactions of the blocks to every subscription, one after the other in the
order of the chain. A container that knows the transaction confirms it or does
nothing, and any other container adds it. What one transaction does to one
subscription is said once here, and what it leaves alone.
-/

set_option autoImplicit false

namespace Orbis.WalletPasses

open FaultState StateList ChainTypes WalletTransfers WalletContents WalletLedger
open WalletConfirm WalletConsumer WalletBlocks

variable {subs subs' : List Subscription} {sh : ℕ}

section Model

/-- `PreprocessedTx`: a transaction with what the search has found in it. -/
abbrev PreprocessedTx := Item × PreprocessInfo

def processTx (r : PreprocessedTx) : EStateM Stop Subscription Unit :=
  processOutputs r.1.blockInfo ⟨r.1.tx, []⟩ r.2

def processAll (processed : List PreprocessedTx) : EStateM Stop (List Subscription) Unit :=
  inTurn (processed.map fun r => each (processTx r))

def processAt (processed : List PreprocessedTx) : EStateM Stop Subscription Unit :=
  inTurn (processed.map processTx)

def advanceHeight (height : ℕ) (s : Subscription) : Subscription :=
  { s with container := (s.container.advanceHeight height).2 }

variable (syncStartTimestamp : UInt64)
  (preprocessOutputs : Item → Except Failure PreprocessInfo → Prop) (hardwareConcurrency : ℕ)

structure Succeeds (blocks : List CompleteBlock) (startHeight : ℕ)
    (processed : List PreprocessedTx) (subs subs' : List Subscription) : Prop where
  searched : OnNewBlocks syncStartTimestamp preprocessOutputs hardwareConcurrency blocks
    startHeight processed
  handed : ∃ mid, processAll processed subs = .ok () mid ∧
    subs' = mid.map (advanceHeight (startHeight + blocks.length - 1))

variable {syncStartTimestamp preprocessOutputs hardwareConcurrency}
  {prs : List PreprocessedTx}

theorem processAll_ok : processAll prs subs = .ok () subs' ↔
      List.Forall₂ (Done (processAt prs)) subs subs' := by
  have hmap : (prs.map fun r => each (processTx r)) = (prs.map processTx).map each := by
    rw [List.map_map]
    rfl
  rw [processAll, hmap, inTurn_each]
  rfl

def Ends (processed : List PreprocessedTx) (height : ℕ) (s s' : Subscription) : Prop :=
  ∃ mid, processAt processed s = .ok () mid ∧ s' = advanceHeight height mid

theorem succeeds_iff {bs : List CompleteBlock} :
    Succeeds syncStartTimestamp preprocessOutputs hardwareConcurrency bs sh prs subs subs' ↔
    OnNewBlocks syncStartTimestamp preprocessOutputs hardwareConcurrency bs sh
        prs ∧ List.Forall₂ (Ends prs (sh + bs.length - 1)) subs subs' := by
  have hmap : ∀ mid : List Subscription,
      List.Forall₂ (fun s s' => s' = advanceHeight (sh + bs.length - 1) s) mid subs' ↔
        subs' = mid.map (advanceHeight (sh + bs.length - 1)) := by
    intro mid
    rw [eq_comm, ← List.forall₂_eq_eq_eq, List.forall₂_map_left_iff]
    simp only [eq_comm]
  have hh : (∃ mid, processAll prs subs = .ok () mid ∧
      subs' = mid.map (advanceHeight (sh + bs.length - 1))) ↔
      List.Forall₂ (Ends prs (sh + bs.length - 1)) subs subs' := by
    unfold Ends
    rw [← forall₂_comp]
    simp only [processAll_ok, hmap]
    rfl
  rw [← hh]
  exact ⟨fun h => ⟨h.searched,h.handed⟩,fun h => ⟨h.1,h.2⟩⟩

end Model

section Distinct

def Unrepeated (blocks : List CompleteBlock) : Prop :=
  (blocks.flatMap CompleteBlock.transactions).Pairwise fun tx other =>
    tx.transactionHash ≠ other.transactionHash

def Distinct (processed : List PreprocessedTx) : Prop :=
  processed.Pairwise fun r other => r.1.tx.transactionHash ≠ other.1.tx.transactionHash

variable {bs : List CompleteBlock}

theorem blockItems_sublist {bi : TransactionBlockInfo} {txs : List TransactionReader} :
    ((blockItems bi txs).map Item.tx).Sublist txs := by
  induction txs generalizing bi with
  | nil => exact .slnil
  | cons tx _ ih =>
    rw [blockItems]
    split_ifs
    · exact ih.cons tx
    · exact ih.cons_cons tx

theorem expected_sublist (sst : UInt64) (ht : ℕ) : ((expected sst ht bs).map Item.tx).Sublist
      (bs.flatMap CompleteBlock.transactions) := by
  induction bs generalizing ht with
  | nil => exact .slnil
  | cons cpl _ ih =>
    rw [expected, List.map_append, List.flatMap_cons]
    refine List.Sublist.append ?_ (ih _)
    unfold completeItems
    cases cpl.block with
    | none => exact List.nil_sublist _
    | some _ =>
      dsimp only
      split_ifs
      · exact List.nil_sublist _
      · exact blockItems_sublist

theorem processed_distinct {sst : UInt64}
    {preprocessOutputs : Item → Except Failure PreprocessInfo → Prop} {hc : ℕ}
    {prs : List PreprocessedTx} (h : OnNewBlocks sst preprocessOutputs hc bs sh
      prs) (hd : Unrepeated bs) : Distinct prs := by
  have hits := (processed_expected sst preprocessOutputs hc bs sh h).1
  have hall := hd.sublist (expected_sublist sst sh)
  rw [← hits, List.map_map, List.pairwise_map] at hall
  exact hall

end Distinct

section Steps

variable {r o : PreprocessedTx} {s s' : Subscription} {hash : Hash}

def Idle (r : PreprocessedTx) (c : TransfersContainer) : Prop :=
  ∃ known, c.transaction r.1.tx.transactionHash = some known ∧
    (known.blockHeight = unconfirmedHeight → r.1.blockInfo.height = unconfirmedHeight)

theorem processTx_idle (h : Idle r s.container) : processTx r s = .ok () s := by
  obtain ⟨_,hkn,hht⟩ := h
  unfold processTx processOutputs
  rw [get_bind, hkn]
  dsimp only
  rw [if_neg]
  · rfl
  · rintro ⟨hwts,hblk⟩
    exact hblk (hht hwts)

theorem processTx_waiting {known : TransactionInformation}
    (hkn : s.container.transaction r.1.tx.transactionHash = some known)
    (hwts : known.blockHeight = unconfirmedHeight)
    (hblk : r.1.blockInfo.height ≠ unconfirmedHeight) :
    processTx r s =
      match markTransactionConfirmed r.1.blockInfo r.1.tx.transactionHash r.2.globalIdxs
          s.container with
      | .ok _ c => .ok () { s with container := c }
      | .error ref c => .error (.thrown ref) { s with container := c } := by
  unfold processTx processOutputs
  rw [get_bind, hkn]
  dsimp only
  rw [if_pos ⟨hwts,hblk⟩, bind_run, onContainer]
  cases markTransactionConfirmed r.1.blockInfo r.1.tx.transactionHash r.2.globalIdxs
    s.container <;> rfl

theorem processTx_unknown (hkn : s.container.transaction r.1.tx.transactionHash = none) :
    processTx r s =
      match addTransaction r.1.blockInfo r.1.tx (r.2.of s.spendKey) s.container with
      | .ok _ c => .ok () { s with container := c }
      | .error ref c => .error (.thrown ref) { s with container := c } := by
  unfold processTx processOutputs
  rw [get_bind, hkn]
  dsimp only
  rw [bind_run, onContainer]
  cases addTransaction r.1.blockInfo r.1.tx (r.2.of s.spendKey) s.container <;> rfl

inductive Step (r : PreprocessedTx) (s : Subscription) : Subscription → Prop
  | idle (idle : Idle r s.container) : Step r s s
  | mark {known : TransactionInformation} {g : Transfers}
      (marked : Marked r.1.blockInfo r.1.tx.transactionHash r.2.globalIdxs s.container known g) :
      Step r s ⟨s.keys, { s.container with
        toTransfers := g
        transactions := replaceTransaction (known.confirmed r.1.blockInfo)
          s.container.transactions }⟩
  | add {spent : Bool} {g : Transfers}
      (added : Added r.1.blockInfo r.1.tx (r.2.of s.spendKey) s.container spent g) :
      Step r s ⟨s.keys, TransfersContainer.record { s.container with toTransfers := g }
        r.1.blockInfo r.1.tx (!(r.2.of s.spendKey).isEmpty || spent)⟩

theorem processTx_step (h : processTx r s = .ok () s') : Step r s s' := by
  cases hkn : s.container.transaction r.1.tx.transactionHash with
  | none =>
    rw [processTx_unknown hkn] at h
    cases hrun : addTransaction r.1.blockInfo r.1.tx (r.2.of s.spendKey) s.container with
    | error _ _ =>
      rw [hrun] at h
      cases h
    | ok _ _ =>
      rw [hrun] at h
      cases h
      obtain ⟨_,g,had,rfl,rfl⟩ := addTransaction_ok hrun
      exact .add had
  | some known =>
    by_cases hi : known.blockHeight = unconfirmedHeight → r.1.blockInfo.height = unconfirmedHeight
    · have hs := processTx_idle (s := s) ⟨known,hkn,hi⟩
      rw [hs] at h
      cases h
      exact .idle ⟨known,hkn,hi⟩
    · obtain ⟨hwts,hblk⟩ := Classical.not_imp.mp hi
      rw [processTx_waiting hkn hwts hblk] at h
      by_cases hcf : AllConfirm r.1.blockInfo r.1.tx.transactionHash r.2.globalIdxs
          (contents s.container.toTransfers)
      · obtain ⟨g,hrun,hg⟩ := mark_ok hblk hkn hwts hcf
        rw [hrun] at h
        cases h
        exact .mark ⟨hblk,hkn,hwts,hcf,hg⟩
      · obtain ⟨_,g,hrun⟩ := mark_error hblk hkn hwts hcf
        rw [hrun] at h
        cases h

theorem Step.keys (h : Step r s s') : s'.keys = s.keys := by
  cases h <;> rfl

theorem Step.spendKey (h : Step r s s') : s'.spendKey = s.spendKey := by
  rw [Subscription.spendKey, h.keys]
  rfl

theorem transaction_congr {c c' : TransfersContainer}
    (h : c'.transactions.filter (fun info => decide (info.transactionHash = hash)) =
      c.transactions.filter fun info => decide (info.transactionHash = hash)) :
    c'.transaction hash = c.transaction hash := by
  unfold TransfersContainer.transaction
  rw [← List.head?_filter, ← List.head?_filter, h]

theorem filter_replaceTransaction {T : List TransactionInformation} {info : TransactionInformation}
    (h : info.transactionHash ≠ hash) :
    (replaceTransaction info T).filter (fun info => decide (info.transactionHash = hash)) =
      T.filter fun info => decide (info.transactionHash = hash) := by
  rw [replaceTransaction, filter_insertByHeight (decide_eq_false h)]
  induction T with
  | nil => rfl
  | cons a _ ih =>
    by_cases ha : a.transactionHash = info.transactionHash
    · have hne : a.transactionHash ≠ hash := fun heq => h (ha.symm.trans heq)
      simp [ha, h]
    · simp only [List.eraseP_cons, decide_eq_false ha, Bool.cond_false, List.filter_cons, ih]

theorem Step.transaction_other (h : Step r s s') (hoth : r.1.tx.transactionHash ≠ hash) :
    s'.container.transaction hash = s.container.transaction hash := by
  cases h with
  | idle _ => rfl
  | @mark known _ hmk =>
    apply transaction_congr
    obtain ⟨-,hh⟩ := transaction_some hmk.known
    apply filter_replaceTransaction
    show known.transactionHash ≠ hash
    rw [hh]
    exact hoth
  | @add _ _ _ =>
    apply transaction_congr
    unfold TransfersContainer.record
    dsimp only
    split_ifs
    · exact filter_insertByHeight (decide_eq_false hoth)
    · rfl

theorem Step.waiting_other (h : Step r s s') (hoth : r.1.tx.transactionHash ≠ hash) :
    waiting hash (contents s'.container.toTransfers) =
      waiting hash (contents s.container.toTransfers) := by
  cases h with
  | idle _ => rfl
  | @mark _ g hmk =>
    show waiting hash (contents g) = _
    rw [hmk.contents]
    unfold waiting marked moved
    rw [List.filter_filter]
    apply List.filter_congr
    intro t _
    by_cases ht : t.transactionHash = hash
    · simp [ht, hoth.symm]
    · simp [ht]
  | @add _ g had =>
    show waiting hash (contents g) = _
    unfold waiting
    rw [spending_unconfirmed had.spending]
    unfold received
    dsimp only
    split_ifs
    · have hn : ((r.2.of s.spendKey).map fun t => core (stored r.1.blockInfo r.1.tx t)).filter
          (fun t => decide (t.transactionHash = hash)) = [] := by
        apply List.filter_eq_nil_iff.mpr
        refine List.forall_mem_map.mpr ?_
        intro t _ heq
        exact hoth (of_decide_eq_true heq)
      rw [List.filter_append, hn, List.append_nil]
    · rfl

end Steps

end Orbis.WalletPasses
