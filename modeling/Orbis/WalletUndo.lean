import Orbis.WalletFlags
import Orbis.WalletLedger

/-!
# A detachment undoes additions

A projection takes a set of transactions out of the contents: what they
received is dropped and what they spent is returned. An addition of one of
them and a deletion of one of them leave the projection as it is, so the
contents after a detachment are those before the additions.
-/

set_option autoImplicit false

namespace Orbis.WalletUndo

open FaultState ListCursor ChainTypes WalletTransfers WalletMoves WalletShown WalletContents
open WalletFlags WalletLedger

variable {T : List TransactionInformation} {info : TransactionInformation}

variable {i : ℕ} {added : Bool} {s : Transfers} {os : List TransactionOutputInformationIn}

section Projection

def without (A : Hash → Bool) (g : Transfers) : Transfers where
  unconfirmed := g.unconfirmed.filter fun t => !A t.transactionHash
  available := (g.available ++ (g.spent.filter fun p =>
      A p.spendingTransactionHash).map SpentTransfer.output).filter fun t => !A t.transactionHash
  spent := g.spent.filter fun p => !A p.spendingTransactionHash

theorem Alike.refl (g : Transfers) : Alike g g := ⟨.refl _,.refl _,.refl _⟩

theorem alike_trans {g g' g'' : Transfers} (h : Alike g g') (h' : Alike g' g'') : Alike g g'' :=
  ⟨h.unconfirmed.trans h'.unconfirmed,h.available.trans h'.available,h.spent.trans h'.spent⟩

variable {A : Hash → Bool} {g g' : Transfers} {hash : Hash} {blk : TransactionBlockInfo}
  {tx : TransactionReader} {transfers : List TransactionOutputInformationIn}

theorem not_and_ne (h : A hash = true) (o : Hash) : (!A o && !decide (o = hash)) = !A o := by
  by_cases heq : o = hash
  · rw [heq, h]
    rfl
  · rw [decide_eq_false heq]
    exact Bool.and_true _

theorem without_deleted (h : A hash = true) : Alike (without A (deleted hash g)) (without A g) where
  unconfirmed := by
    show ((g.unconfirmed.filter _).filter _).Perm (g.unconfirmed.filter _)
    rw [List.filter_filter]
    simp only [not_and_ne h]
    exact .refl _
  available := by
    have hsp : (g.spent.filter fun p => decide (p.spendingTransactionHash = hash)) =
        (g.spent.filter fun p => A p.spendingTransactionHash).filter
          fun p => decide (p.spendingTransactionHash = hash) := by
      rw [List.filter_filter]
      apply List.filter_congr
      intro p _
      by_cases heq : p.spendingTransactionHash = hash
      · rw [heq, h, Bool.and_true]
      · rw [decide_eq_false heq, Bool.false_and]
    have hr : (g.spent.filter (fun p => decide (p.spendingTransactionHash = hash)) ++
        ((g.spent.filter fun p => !decide (p.spendingTransactionHash = hash)).filter
          fun p => A p.spendingTransactionHash)).Perm
        (g.spent.filter fun p => A p.spendingTransactionHash) := by
      have hc : ((g.spent.filter fun p => !decide (p.spendingTransactionHash = hash)).filter
          fun p => A p.spendingTransactionHash) =
          (g.spent.filter fun p => A p.spendingTransactionHash).filter
            fun p => !decide (p.spendingTransactionHash = hash) := List.filter_comm ..
      rw [hsp, hc]
      exact List.filter_append_perm _ _
    show (((g.available ++ _).filter _ ++ _).filter _).Perm ((g.available ++ _).filter _)
    rw [List.filter_append, List.filter_filter]
    simp only [not_and_ne h]
    rw [← List.filter_append, List.append_assoc, ← List.map_append]
    exact ((hr.map _).append_left _).filter _
  spent := by
    show ((g.spent.filter _).filter _).Perm (g.spent.filter _)
    rw [List.filter_filter]
    simp only [not_and_ne h]
    exact .refl _

theorem without_received (h : A tx.transactionHash = true) :
    without A (received blk tx transfers g) = without A g := by
  have hn : (transfers.map fun t => core (stored blk tx t)).filter
      (fun t => !A t.transactionHash) = [] := by
    apply List.filter_eq_nil_iff.mpr
    refine List.forall_mem_map.mpr ?_
    intro t _
    show ¬ (!A tx.transactionHash) = true
    rw [h]
    exact Bool.false_ne_true
  unfold received
  split_ifs
  · apply Transfers.ext
    · show (g.unconfirmed ++ _).filter _ = g.unconfirmed.filter _
      rw [List.filter_append, hn, List.append_nil]
    · rfl
    · rfl
  · apply Transfers.ext
    · rfl
    · show (g.available ++ _ ++ _).filter _ = (g.available ++ _).filter _
      rw [List.filter_append, List.filter_append, hn, List.append_nil, ← List.filter_append]
    · rfl

theorem without_spend {cur : Cursor Transfer} {inp : TransactionInput}
    (h : A hash = true) (hbks : Books T g) (hl : cur.list = g.available)
    (hch : Chosen g cur inp) :
    Alike (without A { g with
      available := cur.erase
      spent := copyToSpent g.spent ⟨cur.item, blk, hash, i⟩ }) (without A g) := by
  rw [(copyToSpent_new blk hash i hbks hl hch).2]
  refine ⟨.refl _,?_,?_⟩
  · show ((cur.erase ++ ((g.spent ++ [_]).filter _).map _).filter _).Perm _
    have hone : ([⟨cur.item, blk, hash, i⟩] : List SpentTransfer).filter
        (fun p => A p.spendingTransactionHash) = [⟨cur.item, blk, hash, i⟩] := by
      simp [h]
    apply List.Perm.filter
    rw [List.filter_append, hone, List.map_append, ← List.append_assoc, ← hl]
    exact (List.perm_append_singleton _ _).trans (cur.perm_list.symm.append_right _)
  · show ((g.spent ++ [_]).filter _).Perm (g.spent.filter _)
    rw [List.filter_append, List.filter_cons_of_neg, List.filter_nil, List.append_nil]
    show ¬ (!A hash) = true
    rw [h]
    exact Bool.false_ne_true

theorem without_spendAll {ins : List TransactionInput} (hrun : Spending blk hash i ins g added g')
    (h : A hash = true) (hbks : Books T g) (hen : Entered T hash blk.height) (hla : Last T hash) :
    Alike (without A g') (without A g) := by
  induction hrun with
  | done _ _ => exact Alike.refl _
  | foreign _ _ ih => exact ih hbks
  | spend hl hch _ ih =>
    exact alike_trans (ih (hbks.spend hl hch hen hla)) (without_spend h hbks hl hch)

theorem without_added {c : TransfersContainer} {spent : Bool}
    (h : Books c.transactions (contents c.toTransfers)) (hbd : blk.height ≤ unconfirmedHeight)
    (hfol : blk.height ≠ unconfirmedHeight → Follows c.transactions blk.height)
    (had : Added blk tx transfers c spent s) (hA : A tx.transactionHash = true) :
    Alike (without A (contents s)) (without A (contents c.toTransfers)) := by
  obtain ⟨hl,hrec⟩ := added_entry h hbd hfol had
  have hsp := without_spendAll had.spending hA hrec entered_new hl
  rw [without_received hA] at hsp
  exact hsp

theorem without_none (h : Books T g) (hA : ∀ info ∈ T, A info.transactionHash = false)
    : without A g = g := by
  have hen : ∀ {hash : Hash} {hgt : ℕ}, Entered T hash hgt → A hash = false := by
    rintro hash hgt ⟨info,hi,rfl,-⟩
    exact hA info hi
  have hn : (g.spent.filter fun p => A p.spendingTransactionHash) = [] := by
    apply List.filter_eq_nil_iff.mpr
    intro p hp
    exact Bool.eq_false_iff.mp (hen (h.spending p hp))
  apply Transfers.ext
  · apply List.filter_eq_self.mpr
    intro t ht
    rw [hen (h.unconfirmed t ht).2]
    rfl
  · show (g.available ++ _).filter _ = g.available
    rw [hn, List.map_nil, List.append_nil]
    apply List.filter_eq_self.mpr
    intro t ht
    rw [hen (h.held t (mem_available ht)).2]
    rfl
  · apply List.filter_eq_self.mpr
    intro p hp
    rw [hen (h.spending p hp)]
    rfl

end Projection

section Additions

inductive Additions (h : ℕ) (S : TransfersContainer) : ℕ → Bool → TransfersContainer → Prop
  | start : Additions h S h true S
  | confirmed {low : ℕ} {only added : Bool} {c c' : TransfersContainer}
      {block : TransactionBlockInfo} {tx : TransactionReader}
      {transfers : List TransactionOutputInformationIn} (run : Additions h S low only c)
      (height : low ≤ block.height) (bound : block.height < unconfirmedHeight)
      (done : addTransaction block tx transfers c = .ok added c') :
      Additions h S block.height only c'
  | unconfirmed {low : ℕ} {only added : Bool} {c c' : TransfersContainer}
      {block : TransactionBlockInfo} {tx : TransactionReader}
      {transfers : List TransactionOutputInformationIn} (run : Additions h S low only c)
      (height : block.height = unconfirmedHeight)
      (done : addTransaction block tx transfers c = .ok added c') : Additions h S low false c'

def Below (T : List TransactionInformation) (h : ℕ) : Prop :=
  ∀ info ∈ T, info.blockHeight ≠ unconfirmedHeight → info.blockHeight < h

def unknown (S : TransfersContainer) (hash : Hash) : Bool := (S.transaction hash).isNone

variable {h low : ℕ} {only : Bool} {S c : TransfersContainer}

theorem record_transactions {blk : TransactionBlockInfo} {tx : TransactionReader}
    (hi : info ∈ (TransfersContainer.record { c with toTransfers := s } blk tx
      added).transactions) : info = transactionInformation blk tx ∨ info ∈ c.transactions := by
  cases added with
  | true => exact mem_insertByHeight.mp hi
  | false => exact .inr hi

theorem additions_session (hS : AnySession S) (hbelow : Below S.transactions h)
    (hadd : Additions h S low only c) : AnySession c ∧ h ≤ low ∧ Follows c.transactions low := by
  induction hadd with
  | start => exact ⟨hS,le_rfl,fun info hi hcfd => (hbelow info hi hcfd).le⟩
  | @confirmed _ _ _ c _ blk _ _ _ hht hbd hd ih =>
    obtain ⟨hses,hlow,hfol⟩ := ih
    have hn : Follows c.transactions blk.height := fun info hi hcfd => (hfol info hi hcfd).trans hht
    refine ⟨.add hses hbd.le (fun _ => hn) trivial hd,hlow.trans hht,?_⟩
    obtain ⟨spent,s,-,-,rfl⟩ := addTransaction_ok hd
    intro info hi hcfd
    rcases record_transactions hi with rfl | hi
    · exact le_rfl
    · exact hn info hi hcfd
  | @unconfirmed _ _ _ _ _ _ _ _ _ hht hd ih =>
    obtain ⟨hses,hlow,hfol⟩ := ih
    refine ⟨.add hses hht.le (fun hne => absurd hht hne) trivial hd,hlow,?_⟩
    obtain ⟨spent,s,-,-,rfl⟩ := addTransaction_ok hd
    intro info hi hcfd
    rcases record_transactions hi with rfl | hi
    · exact absurd hht hcfd
    · exact hfol info hi hcfd

structure Grown (h : ℕ) (S c : TransfersContainer) : Prop where
  kept : (c.transactions.filter fun info => !unknown S info.transactionHash) = S.transactions
  above : ∀ info ∈ c.transactions, unknown S info.transactionHash = true →
    info.blockHeight ≠ unconfirmedHeight ∧ h ≤ info.blockHeight
  contents : Alike (without (unknown S) (contents c.toTransfers)) (contents S.toTransfers)

theorem unknown_iff {hash : Hash} : unknown S hash = true ↔
    ∀ info ∈ S.transactions, info.transactionHash ≠ hash := by
  rw [unknown, Option.isNone_iff_eq_none, transaction_none]

theorem additions_grown (hS : AnySession S) (hbelow : Below S.transactions h)
    (hadd : Additions h S low only c) (ho : only = true) : Grown h S c := by
  induction hadd with
  | start =>
    have hkn : ∀ info ∈ S.transactions, unknown S info.transactionHash = false := by
      intro info hi
      apply Bool.eq_false_iff.mpr
      exact fun hunk => unknown_iff.mp hunk info hi rfl
    refine ⟨?_,?_,?_⟩
    · apply List.filter_eq_self.mpr
      intro info hi
      rw [hkn info hi]
      rfl
    · intro info hi hunk
      rw [hkn info hi] at hunk
      cases hunk
    · rw [without_none (session_books hS) hkn]
      exact Alike.refl _
  | @confirmed _ _ added _ _ _ tx _ run hht hbd hd ih =>
    obtain ⟨hses,hlow,hfol⟩ := additions_session hS hbelow run
    have hgr := ih ho
    obtain ⟨_,_,had,-,rfl⟩ := addTransaction_ok hd
    have hunk : unknown S tx.transactionHash = true := by
      apply unknown_iff.mpr
      intro info hi
      rw [← hgr.kept] at hi
      exact transaction_none.mp had.unknown info (List.mem_filter.mp hi).1
    refine ⟨?_,?_,?_⟩
    · rw [← hgr.kept]
      cases added with
      | true =>
        apply filter_insertByHeight
        show (!unknown S tx.transactionHash) = false
        rw [hunk]
        rfl
      | false => rfl
    · intro info hi hoth
      rcases record_transactions hi with rfl | hi
      · exact ⟨hbd.ne,hlow.trans hht⟩
      · exact hgr.above info hi hoth
    · have had := without_added (session_books hses) hbd.le
        (fun _ info hi hcfd => (hfol info hi hcfd).trans hht) had
        hunk
      exact alike_trans had hgr.contents
  | unconfirmed _ _ _ _ => cases ho

section Detached

variable (hS : AnySession S) (hbelow : Below S.transactions h)

include hS hbelow

theorem grown_remains (hgr : Grown h S c) (hi : info ∈ c.transactions) :
    remains h (contents c.toTransfers) info = !unknown S info.transactionHash := by
  by_cases hunk : unknown S info.transactionHash = true
  · obtain ⟨hcfd,hht⟩ := hgr.above info hi hunk
    rw [remains, if_neg hcfd, hunk]
    exact decide_eq_false (Nat.not_lt.mpr hht)
  · have hkn := Bool.eq_false_iff.mpr hunk
    have hold : info ∈ S.transactions := by
      rw [← hgr.kept]
      refine List.mem_filter.mpr ⟨hi,?_⟩
      rw [hkn]
      rfl
    rw [hkn, remains]
    split_ifs with hunc
    · congr 1
      rw [List.any_eq_false]
      intro p hp hsps
      obtain ⟨hspg,hht⟩ := of_decide_eq_true hsps
      -- what it spends was spent in `S` already
      have hmem : p ∈ (without (unknown S) (contents c.toTransfers)).spent := by
        refine List.mem_filter.mpr ⟨hp,?_⟩
        rw [hspg, hkn]
        rfl
      have hbef := hgr.contents.spent.mem_iff.mp hmem
      obtain ⟨hne,o,hoth,-,hlvl⟩ := (session_books hS).held p.output (mem_spent hbef)
      have hlow := hbelow o hoth (hlvl ▸ hne)
      omega
    · exact decide_eq_true (hbelow info hold hunc)

theorem detach_grown (hc : AnySession c) (hgr : Grown h S c) :
    (c.detach h).2.transactions = S.transactions ∧
      Alike (contents (c.detach h).2.toTransfers) (contents S.toTransfers) := by
  obtain ⟨halk,hbks,hl,-⟩ := detach_books h
    (I := fun g => Alike (without (unknown S) g) (contents S.toTransfers)) (c := c) (by
      intro info hi hrmd g _ hg
      rw [grown_remains hS hbelow hgr hi] at hrmd
      have hunk : unknown S info.transactionHash = true := by simpa using hrmd
      exact alike_trans (without_deleted hunk) hg) hgr.contents (session_books hc)
  have htxs : (c.detach h).2.transactions = S.transactions := by
    rw [hl, ← hgr.kept]
    exact List.filter_congr fun info hi => grown_remains hS hbelow hgr hi
  refine ⟨htxs,?_⟩
  rw [htxs] at hbks
  rw [without_none hbks] at halk
  · exact halk
  · intro info hi
    apply Bool.eq_false_iff.mpr
    exact fun hunk => unknown_iff.mp hunk info hi rfl

end Detached

def Removed (h : ℕ) (c : TransfersContainer) (info : TransactionInformation) : Prop :=
  info.blockHeight ≠ unconfirmedHeight ∧ h ≤ info.blockHeight ∨
    info.blockHeight = unconfirmedHeight ∧ ∃ p ∈ c.spent,
      p.spendingTransactionHash = info.transactionHash ∧ h ≤ p.output.blockHeight

theorem remains_iff : remains h (contents c.toTransfers) info = true ↔ ¬ Removed h c info := by
  unfold remains Removed
  rw [← any_contents]
  split_ifs with hunc
  · simp [hunc]
  · simp [hunc]

/-- A detachment removes the transactions from the height on and the unconfirmed
ones that spend what they received, and no transfer received or spent there is
left. After additions of confirmed transactions only, the transactions and the
contents are those of before, and also what is shown, unless two transfers with
one key image have the same place. -/
theorem detach_undoes (hS : AnySession S) (hbelow : Below S.transactions h)
    (hadd : Additions h S low only c) :
    (∀ info, info ∈ (c.detach h).2.transactions ↔ info ∈ c.transactions ∧ ¬ Removed h c info) ∧
    (∀ hash, hash ∈ (c.detach h).1 ↔
      ∃ info ∈ c.transactions, Removed h c info ∧ info.transactionHash = hash) ∧
    (∀ t ∈ holdings (c.detach h).2.toTransfers, t.blockHeight < h) ∧ (∀ p ∈ (c.detach h).2.spent,
      p.spendingBlock.height = unconfirmedHeight ∨ p.spendingBlock.height < h) ∧
    (only = true → (c.detach h).2.transactions = S.transactions ∧
      Alike (contents (c.detach h).2.toTransfers) (contents S.toTransfers) ∧
      (Untied S.available → Alike (c.detach h).2.toTransfers S.toTransfers)) := by
  obtain ⟨hses,-,-⟩ := additions_session hS hbelow hadd
  obtain ⟨-,hbks,hl,hrmd⟩ := detach_books h (I := fun _ => True)
    (fun _ _ _ _ _ _ => trivial) trivial (session_books hses)
  have hmem : ∀ info, info ∈ (c.detach h).2.transactions ↔
      info ∈ c.transactions ∧ ¬ Removed h c info := by
    intro info
    rw [hl, List.mem_filter, remains_iff]
  have hlvl : ∀ {hash : Hash} {height : ℕ}, Entered (c.detach h).2.transactions hash height →
      height = unconfirmedHeight ∨ height < h := by
    rintro hash height ⟨info,hi,-,rfl⟩
    by_contra hnot
    obtain ⟨hcfd,hht⟩ := not_or.mp hnot
    exact ((hmem info).mp hi).2 (.inl ⟨hcfd,Nat.not_lt.mp hht⟩)
  refine ⟨hmem,?_,?_,?_,?_⟩
  · intro hash
    rw [hrmd, List.mem_map]
    simp only [List.mem_filter, List.mem_reverse, Bool.not_eq_true', ← Bool.not_eq_true,
      remains_iff, not_not, and_assoc]
  · intro t ht
    obtain ⟨hcfd,hen⟩ := hbks.held (core t) (core_holdings ht)
    exact (hlvl hen).resolve_left hcfd
  · intro p hp
    exact hlvl (hbks.spending (spentCore p) (List.mem_map_of_mem hp))
  · intro ho
    obtain ⟨htxs,halk⟩ := detach_grown hS hbelow hses (additions_grown hS hbelow hadd ho)
    refine ⟨htxs,halk,fun hunt => ?_⟩
    have hdet := session_called (hses.detach h)
    have hbef := session_called hS
    exact alike_of_contents (called_settled hdet) (called_plain hdet)
      (called_settled hbef) (called_plain hbef) hunt halk

end Additions

def sampleOwned (others : List TransactionOutputInformationIn) : TransfersContainer :=
  left (addTransaction ⟨5, 0, 0⟩ (sampleReader 1 []) (sampleTransfer 100 10 0 7 :: others) .empty)

def sampleExtended (others : List TransactionOutputInformationIn) : TransfersContainer :=
  left (addTransaction ⟨6, 0, 0⟩ (sampleReader 2 [.key 100 [] 7]) [] (sampleOwned others))

theorem sampleOwned_session
    (h : addTransaction ⟨5, 0, 0⟩ (sampleReader 1 []) (sampleTransfer 100 10 0 7 :: os) .empty =
      .ok true (sampleOwned os)) : AnySession (sampleOwned os) :=
  .add .empty (by decide) (fun _ _ hi => (List.not_mem_nil hi).elim) trivial h

theorem sampleOwned_below (others : List TransactionOutputInformationIn)
    (h : (sampleOwned others).transactions = [transactionInformation ⟨5, 0, 0⟩ (sampleReader 1 [])])
    : Below (sampleOwned others).transactions 6 := by
  rw [h]
  intro info hi _
  rw [List.mem_singleton.mp hi]
  decide

theorem sampleExtended_additions
    (h : addTransaction ⟨6, 0, 0⟩ (sampleReader 2 [.key 100 [] 7]) [] (sampleOwned os) =
      .ok true (sampleExtended os)) : Additions 6 (sampleOwned os) 6 true (sampleExtended os) :=
  .confirmed .start (le_refl 6) (by decide) h

theorem detach_undoes_sample : (sampleExtended []).spent.length = 1 ∧
    Alike ((sampleExtended []).detach 6).2.toTransfers (sampleOwned []).toTransfers := by
  have hunt : Untied (sampleOwned []).available := List.pairwise_singleton _ _
  have hu := detach_undoes (sampleOwned_session rfl) (sampleOwned_below [] rfl)
    (sampleExtended_additions rfl)
  exact ⟨by decide +kernel,(hu.2.2.2.2 rfl).2.2 hunt⟩

/-- Two outputs of one transaction with one key image: the first is shown, the
second is shown after the first was spent and the spending block detached. -/
theorem tied_transfer_shown :
    ∃ S c, AnySession S ∧ Below S.transactions 6 ∧ Additions 6 S 6 true c ∧
      ((S.available.filter fun t => t.visible).map fun t => t.amount) = [100] ∧
      (((c.detach 6).2.available.filter fun t => t.visible).map fun t => t.amount) = [200] := by
  refine ⟨sampleOwned [sampleTransfer 200 11 1 7],sampleExtended [sampleTransfer 200 11 1 7],
    sampleOwned_session rfl,sampleOwned_below _ rfl,sampleExtended_additions rfl,?_,?_⟩
  · decide +kernel
  · decide +kernel

end Orbis.WalletUndo
