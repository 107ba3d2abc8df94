import Orbis.WalletLedger

/-!
# Every output is in one container

An output is known by its transaction and its index there. The caller reports
a key output once; a multisignature output is reported for each key of the
account, and a second report is refused when the transaction is in a block. So
the outputs in blocks have different origins, and the unconfirmed ones are
apart from them by their transactions.
-/

set_option autoImplicit false

namespace Orbis.WalletPlaces

open FaultState ChainTypes WalletTransfers WalletMoves WalletContents WalletLedger

variable {hash : Hash} {blk : TransactionBlockInfo} {tx : TransactionReader}
  {transfers : List TransactionOutputInformationIn}

section Places

def Repeats (t u : TransactionOutputInformationIn) : Prop :=
  t.outputInTransaction = u.outputInTransaction → t = u ∧ ∃ m, t.kind = .multisignature m

def Listed (transfers : List TransactionOutputInformationIn) : Prop := transfers.Pairwise Repeats

def Elsewhere (t u : Transfer) : Prop :=
  t.transactionHash = u.transactionHash → t.outputInTransaction ≠ u.outputInTransaction

structure Placed (g : Transfers) : Prop where
  reported : g.unconfirmed.Pairwise fun t u => t.transactionHash = u.transactionHash →
    Repeats t.toTransactionOutputInformationIn u.toTransactionOutputInformationIn
  places : (holdings g).Pairwise Elsewhere

variable {T : List TransactionInformation} {g g' : Transfers}

theorem Elsewhere.symm {t u : Transfer} (h : Elsewhere t u) : Elsewhere u t :=
  fun hs => (h hs.symm).symm

theorem Placed.delete (h : Placed g) (hrel : Releasable hash g) : Placed (deleted hash g) :=
  ⟨h.reported.filter _, (holdings_deleted hrel).symm.pairwise (h.places.filter _) Elsewhere.symm⟩

theorem Placed.gain (h : Placed g) {new : List Transfer} (hnew : new.Pairwise Elsewhere)
    (hpls : ∀ t ∈ holdings g, ∀ u ∈ new, Elsewhere t u) :
    Placed { g with available := g.available ++ new } := by
  refine ⟨h.reported,?_⟩
  apply holdings_gain.symm.pairwise _ Elsewhere.symm
  exact List.pairwise_append.mpr ⟨h.places,hnew,hpls⟩

theorem elsewhere_of_repeats {t u : TransactionOutputInformationIn} (h : Repeats t u)
    (hcsh : ¬ Clash t u) : t.outputInTransaction ≠ u.outputInTransaction := by
  intro hs
  obtain ⟨rfl,hk⟩ := h hs
  exact hcsh ⟨hk,rfl⟩

theorem Placed.receive (h : Placed g) (hlsd : Listed transfers) (hfit : AllFit g blk transfers)
    (hnew : ∀ t, t ∈ g.unconfirmed ∨ t ∈ holdings g → t.transactionHash ≠ tx.transactionHash) :
    Placed (received blk tx transfers g) := by
  unfold received
  split_ifs with hblk
  · refine ⟨?_,h.places⟩
    apply List.pairwise_append.mpr
    refine ⟨h.reported,?_,?_⟩
    · apply List.pairwise_map.mpr
      apply hlsd.imp
      exact fun hr _ => hr
    · intro t ht
      refine List.forall_mem_map.mpr ?_
      exact fun u _ hs => absurd hs (hnew t (.inl ht))
  · have hfr := hfit.fresh hblk
    apply h.gain
    · apply List.pairwise_map.mpr
      apply hlsd.imp₂ _ hfr.apart
      exact fun t u hr hcsh _ => elsewhere_of_repeats hr hcsh
    · intro t ht
      refine List.forall_mem_map.mpr ?_
      exact fun u _ hs => absurd hs (hnew t (.inr ht))

theorem Placed.spendAll {i : ℕ} {ins : List TransactionInput} {added : Bool}
    (hrun : Spending blk hash i ins g added g') (h : Placed g) (hbks : Books T g)
    (hen : Entered T hash blk.height) (hla : Last T hash) : Placed g' := by
  induction hrun with
  | done _ _ => exact h
  | foreign _ _ ih => exact ih h hbks
  | @spend i _ _ _ _ _ _ hl hch _ ih =>
    apply ih _ (hbks.spend hl hch hen hla)
    exact ⟨h.reported,
      (holdings_spend blk hash i hbks hl hch).symm.pairwise h.places Elsewhere.symm⟩

theorem Placed.mark {gi : List ℕ} {info : TransactionInformation} (h : Placed g) (hbks : Books T g)
    (hi : info ∈ T) (hht : info.blockHeight = unconfirmedHeight)
    (hcf : AllConfirm blk info.transactionHash gi g) :
    Placed (marked blk info.transactionHash gi g) := by
  have hset : Placed
      { unconfirmed := g.unconfirmed.filter fun t =>
          !decide (t.transactionHash = info.transactionHash)
        available := g.available
        spent := g.spent.map (SpentTransfer.respend blk info.transactionHash) } := by
    refine ⟨h.reported.filter _,?_⟩
    rw [holdings_respend]
    exact h.places
  have hw : ∀ t ∈ waiting info.transactionHash g, t.transactionHash = info.transactionHash :=
    fun t ht => of_decide_eq_true (List.mem_filter.mp ht).2
  apply hset.gain
  · have hcsh := List.pairwise_map.mp hcf.fresh.apart
    apply List.pairwise_map.mpr
    apply (h.reported.filter _).imp₂ _ hcsh
    intro t u hr hcsh hs hpl
    obtain ⟨heq,m,hm⟩ := hr hs hpl
    have hin : (confirmedAt blk gi t).toTransactionOutputInformationIn =
        (confirmedAt blk gi u).toTransactionOutputInformationIn :=
      congrArg (fun x : TransactionOutputInformationIn => { x with
        globalOutputIndex := gi.getD x.outputInTransaction 0 }) heq
    rw [← hin] at hcsh
    exact hcsh ⟨⟨m,hm⟩,rfl⟩
  · intro t ht
    rw [holdings_respend] at ht
    refine List.forall_mem_map.mpr ?_
    intro u hu hs
    exact absurd (hs.trans (hw u hu)) (hbks.held_other ⟨info,hi,rfl,hht⟩ ht)

end Places

section Sessions

variable {c c' : TransfersContainer} {added : Bool}

theorem addTransaction_placed (h : Placed (contents c.toTransfers))
    (hbks : Books c.transactions (contents c.toTransfers)) (hbd : blk.height ≤ unconfirmedHeight)
    (hfol : blk.height ≠ unconfirmedHeight → Follows c.transactions blk.height)
    (hlsd : Listed transfers) (hd : addTransaction blk tx transfers c = .ok added c') :
    Placed (contents c'.toTransfers) := by
  obtain ⟨_,_,had,-,rfl⟩ := addTransaction_ok hd
  obtain ⟨hl,hrec⟩ := added_entry hbks hbd hfol had
  have hnew : ∀ t, t ∈ (contents c.toTransfers).unconfirmed ∨
      t ∈ holdings (contents c.toTransfers) →
      t.transactionHash ≠ tx.transactionHash := by
    intro t ht heq
    obtain ⟨info,hi,hh,-⟩ := hbks.mem_transaction ht
    exact transaction_none.mp had.unknown info hi (hh.trans heq)
  exact Placed.spendAll had.spending (h.receive hlsd (allFit_contents had.fit) hnew)
    hrec entered_new hl

theorem session_placed (h : Session Listed c) : Placed (contents c.toTransfers) := by
  induction h with
  | empty => exact ⟨List.Pairwise.nil,List.Pairwise.nil⟩
  | add run hbd hfol hlsd hd ih =>
    exact addTransaction_placed ih (session_books run) hbd hfol hlsd hd
  | @mark _ _ _ _ _ _ run _ _ hd ih =>
    rcases markTransactionConfirmed_ok hd with rfl | ⟨info,s,hmk,rfl⟩
    · exact ih
    · obtain ⟨hmem,rfl⟩ := transaction_some hmk.known
      show Placed (contents s)
      rw [hmk.contents]
      exact ih.mark (session_books run) hmem hmk.unconfirmed hmk.allConfirm
  | @delete c run hash ih =>
    unfold TransfersContainer.deleteUnconfirmedTransaction
    cases hi : c.transaction hash with
    | none => exact ih
    | some info =>
      dsimp only
      split_ifs with hht
      · exact ih
      · obtain ⟨hmem,rfl⟩ := transaction_some hi
        have hrel := (session_books run).releasable_unconfirmed hmem (not_not.mp hht)
        show Placed (contents (c.toTransfers.deleteTransactionTransfers info.transactionHash))
        rw [deleteTransactionTransfers_contents]
        exact ih.delete hrel
  | detach run ht ih =>
    exact (detach_books ht (fun _ _ _ _ hrel h => Placed.delete h hrel) ih (session_books run)).1
  | advance _ _ ih =>
    unfold TransfersContainer.advanceHeight
    split_ifs <;> exact ih

def Transfer.origin (t : Transfer) : Hash × ℕ := (t.transactionHash, t.outputInTransaction)

/-- After any calls that follow the heights and return, an output is in one
container, its transaction and the one that spends it are known with their
heights, and it is unconfirmed if and only if its transaction is. -/
theorem transfers_booked (h : Session Listed c) :
    (∀ t ∈ c.unconfirmed, ∀ u ∈ holdings c.toTransfers, Transfer.origin t ≠ Transfer.origin u) ∧
    (∀ t ∈ c.available, ∀ p ∈ c.spent, Transfer.origin t ≠ Transfer.origin p.output) ∧
    (∀ t ∈ c.unconfirmed ++ holdings c.toTransfers, ∃ info,
      c.transaction t.transactionHash = some info ∧ info.blockHeight = t.blockHeight ∧
      (t ∈ c.unconfirmed ↔ info.blockHeight = unconfirmedHeight)) ∧
    ∀ p ∈ c.spent, ∃ info, c.transaction p.spendingTransactionHash = some info ∧
      info.blockHeight = p.spendingBlock.height := by
  have hbks := session_books h
  have hunc : ∀ t ∈ c.unconfirmed, t.blockHeight = unconfirmedHeight ∧
      Entered c.transactions t.transactionHash unconfirmedHeight :=
    fun t ht => hbks.unconfirmed (core t) (List.mem_map_of_mem ht)
  have hh : ∀ t ∈ holdings c.toTransfers, t.blockHeight ≠ unconfirmedHeight ∧
      Entered c.transactions t.transactionHash t.blockHeight :=
    fun t ht => hbks.held (core t) (core_holdings ht)
  refine ⟨?_,?_,?_,?_⟩
  · intro t ht u hu heq
    have hoth := hbks.held_other (hunc t ht).2 (core_holdings hu)
    exact hoth (congrArg Prod.fst heq).symm
  · intro t ht p hp heq
    have hpls := (session_placed h).places
    have hel := (List.pairwise_append.mp hpls).2.2 (core t) (List.mem_map_of_mem ht)
      (core p.output) (List.mem_map_of_mem (List.mem_map_of_mem hp))
    exact hel (congrArg Prod.fst heq) (congrArg Prod.snd heq)
  · intro t ht
    rcases List.mem_append.mp ht with ht | ht
    · obtain ⟨hht,hen⟩ := hunc t ht
      obtain ⟨info,hi,hlvl⟩ := (transaction_entered hbks.indexed).mp hen
      exact ⟨info,hi,hlvl.trans hht.symm,iff_of_true ht hlvl⟩
    · obtain ⟨hht,hen⟩ := hh t ht
      obtain ⟨info,hi,hlvl⟩ := (transaction_entered hbks.indexed).mp hen
      refine ⟨info,hi,hlvl,iff_of_false ?_ (hlvl ▸ hht)⟩
      exact fun ht => hht (hunc t ht).1
  · intro p hp
    exact (transaction_entered hbks.indexed).mp
      (hbks.spending (spentCore p) (List.mem_map_of_mem hp))

def sampleReceived : TransfersContainer :=
  left (addTransaction ⟨4, 0, 1⟩ (sampleReader 1 []) [sampleTransfer 100 10 0 7] .empty)

def sampleSpent : TransfersContainer :=
  left (addTransaction ⟨6, 0, 2⟩ (sampleReader 2 [.key 100 [] 7]) [sampleTransfer 60 11 1 9]
    sampleReceived)

def sampleLedger : TransfersContainer :=
  left (addTransaction ⟨unconfirmedHeight, 0, 0⟩ (sampleReader 3 [])
    [sampleTransfer 300 unconfirmedIndex 0 8] sampleSpent)

theorem sampleReceived_session : Session Listed sampleReceived := by
  have hd : addTransaction ⟨4, 0, 1⟩ (sampleReader 1 []) [sampleTransfer 100 10 0 7] .empty =
      .ok true sampleReceived := rfl
  exact .add .empty (by decide) (fun _ _ h => (List.not_mem_nil h).elim)
    (List.pairwise_singleton _ _) hd

theorem sampleSpent_session : Session Listed sampleSpent := by
  have hd : addTransaction ⟨6, 0, 2⟩ (sampleReader 2 [.key 100 [] 7]) [sampleTransfer 60 11 1 9]
      sampleReceived = .ok true sampleSpent := rfl
  have hfol : Follows sampleReceived.transactions 6 := by
    unfold Follows
    decide +kernel
  exact .add sampleReceived_session (by decide) (fun _ => hfol) (List.pairwise_singleton _ _) hd

theorem sampleLedger_session : Session Listed sampleLedger := by
  have hd : addTransaction ⟨unconfirmedHeight, 0, 0⟩ (sampleReader 3 [])
      [sampleTransfer 300 unconfirmedIndex 0 8] sampleSpent = .ok true sampleLedger := rfl
  exact .add sampleSpent_session (by decide) (fun hne => absurd rfl hne)
    (List.pairwise_singleton _ _) hd

theorem transfers_booked_sample :
    sampleLedger.spent.length = 1 ∧ sampleLedger.unconfirmed.length = 1 ∧
    ∀ p ∈ sampleLedger.spent, ∃ info,
      sampleLedger.transaction p.spendingTransactionHash = some info ∧
      info.blockHeight = p.spendingBlock.height :=
  ⟨by decide +kernel,by decide +kernel,(transfers_booked sampleLedger_session).2.2.2⟩

end Sessions

end Orbis.WalletPlaces
