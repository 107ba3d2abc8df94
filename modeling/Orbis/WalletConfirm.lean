import Orbis.WalletFlags
import Orbis.WalletLedger

/-!
# Confirming a transaction and adding it confirmed

A transaction can come to the container before its block or with it. Both ways
are run side by side: the outputs wait among the unconfirmed ones on one side
and stand behind the available ones on the other. An input then takes the same
transfer on both sides, unless it takes an output of its own transaction, which
is possible only where the outputs are available already.
-/

set_option autoImplicit false

namespace Orbis.WalletConfirm

open FaultState ListCursor ChainTypes WalletTransfers WalletMoves WalletShown WalletContents
open WalletFlags WalletLedger

variable {keyImage ki : KeyImage} {p : SpentTransfer} {amount : UInt64}

section Choice

variable {g : Transfers} {c d : Cursor Transfer} {input : TransactionInput}

theorem chosen_unique (hc : Chosen g c input) (hd : Chosen g d input) (h : c.list = d.list) :
    c = d := by
  cases input with
  | base _ => exact hc.elim
  | key _ _ _ => exact hc.2.unique hd.2 h
  | multisignature _ _ _ =>
    exact Cursor.first_unique h hc.1 hc.2 hd.1 hd.2

theorem chosen_not_foreign (hc : Chosen g c input) (h : c.list = g.available) :
    ¬ Foreign g input := by
  have hi : c.item ∈ g.available := h ▸ c.item_mem
  intro hfgn
  cases input with
  | base _ => exact hc
  | key _ _ _ =>
    have hfor := (Bool.and_eq_true_iff.mp hc.2.holds).1
    rw [hfgn.2.1 c.item hi] at hfor
    cases hfor
  | multisignature _ _ _ => exact hfgn c.item hi hc.1

end Choice

variable {o t : Transfer} {l : List Transfer} {spent : List SpentTransfer}
  {ois : List UInt32} {T : List TransactionInformation}

section Sides

variable (unconfirmedBlock block : TransactionBlockInfo) (tx : TransactionReader)
  (globalIndices : List ℕ) (transfers : List TransactionOutputInformationIn)

def withIndex (t : TransactionOutputInformationIn) : TransactionOutputInformationIn :=
  { t with globalOutputIndex := globalIndices.getD t.outputInTransaction 0 }

def ownImage (t : TransactionOutputInformationIn) : Option KeyImage :=
  match t.kind with
  | .key _ keyImage => some keyImage
  | .multisignature _ => none

def ownImages : List KeyImage := transfers.filterMap ownImage

def waitingOutputs : List Transfer := transfers.map fun t => core (stored unconfirmedBlock tx t)

def blockOutputs : List Transfer :=
  (transfers.map (withIndex globalIndices)).map fun t => core (stored block tx t)

structure Parallel (g g' : Transfers) : Prop where
  unconfirmed : g.unconfirmed = g'.unconfirmed ++ waitingOutputs unconfirmedBlock tx transfers
  available : g'.available = g.available ++ blockOutputs block tx globalIndices transfers
  spent : g'.spent = g.spent.map (SpentTransfer.respend block tx.transactionHash)

/-- With the block, the input takes an output of its own transaction: a
multisignature output that it names, or a key output that is earlier than all
available ones with its key image and amount. -/
def SpendsOwn (available : List Transfer) : TransactionInput → Prop
  | .key amount _ keyImage => ∃ o ∈ blockOutputs block tx globalIndices transfers,
      o.isFor keyImage = true ∧ o.amount = amount ∧
      ∀ t ∈ available, t.isFor keyImage = true → t.amount = amount → o.place < t.place
  | .multisignature amount _ outputIndex =>
    ∃ o ∈ blockOutputs block tx globalIndices transfers,
      o.descriptor = .multisignature amount outputIndex.toNat
  | .base _ => False

variable {unconfirmedBlock block tx globalIndices transfers}

theorem waiting_confirmed (unconfirmedBlock : TransactionBlockInfo) :
    (waitingOutputs unconfirmedBlock tx transfers).map (confirmedAt block globalIndices) =
      blockOutputs block tx globalIndices transfers := by
  unfold waitingOutputs blockOutputs
  rw [List.map_map, List.map_map]
  rfl

theorem waiting_isFor (unconfirmedBlock : TransactionBlockInfo)
    (ho : o ∈ blockOutputs block tx globalIndices transfers) (hfor : o.isFor ki = true) :
    ∃ t ∈ waitingOutputs unconfirmedBlock tx transfers, t.isFor ki = true := by
  rw [← waiting_confirmed unconfirmedBlock] at ho
  obtain ⟨t,ht,rfl⟩ := List.mem_map.mp ho
  refine ⟨t,ht,?_⟩
  obtain ⟨ok,hk⟩ := isFor_key hfor
  exact key_isFor (show t.kind = .key ok ki from hk)

theorem ownImage_of_isFor {t : TransactionOutputInformationIn}
    (h : (core (stored block tx (withIndex globalIndices t))).isFor ki = true) :
    ownImage t = some ki := by
  obtain ⟨ok,hk⟩ := isFor_key h
  rw [ownImage, show t.kind = .key ok ki from hk]

theorem own_unique {o' : Transfer} (hkeys : (ownImages transfers).Nodup)
    (ho : o ∈ blockOutputs block tx globalIndices transfers)
    (ho' : o' ∈ blockOutputs block tx globalIndices transfers) (hfor : o.isFor ki = true)
    (hfor' : o'.isFor ki = true) : o = o' := by
  rw [blockOutputs, List.map_map] at ho ho'
  obtain ⟨u,hu,rfl⟩ := List.mem_map.mp ho
  obtain ⟨v,hv,rfl⟩ := List.mem_map.mp ho'
  have hsymm : Std.Symm fun a b : TransactionOutputInformationIn =>
      ∀ image, ownImage a = some image → ∀ image', ownImage b = some image' → image ≠ image' :=
    ⟨fun _ _ h image hb image' ha => (h image' ha image hb).symm⟩
  by_contra hne
  have huv : u ≠ v := fun heq => hne (heq ▸ rfl)
  exact (List.pairwise_filterMap.mp hkeys).forall hu hv huv ki (ownImage_of_isFor hfor) ki
    (ownImage_of_isFor hfor') rfl

variable {g g' : Transfers} {available : List Transfer} {input : TransactionInput}
  {c : Cursor Transfer}

theorem foreign_parallel (h : Parallel unconfirmedBlock block tx globalIndices transfers g g')
    (hfgn : Foreign g input) (hown : ¬ SpendsOwn block tx globalIndices transfers available input)
    (hl : c.list = g'.available) : ¬ Chosen g' c input := by
  intro hch
  have hi : c.item ∈ g.available ++ blockOutputs block tx globalIndices transfers := by
    rw [← h.available, ← hl]
    exact c.item_mem
  cases input with
  | base _ => exact hch
  | key _ _ _ =>
    have hfor := (Bool.and_eq_true_iff.mp hch.2.holds).1
    rcases List.mem_append.mp hi with hi | hi
    · rw [hfgn.2.1 c.item hi] at hfor
      cases hfor
    · obtain ⟨t,ht,hfor⟩ := waiting_isFor unconfirmedBlock hi hfor
      rw [hfgn.2.2 t (h.unconfirmed ▸ List.mem_append_right _ ht)] at hfor
      cases hfor
  | multisignature _ _ _ =>
    rcases List.mem_append.mp hi with hi | hi
    · exact hfgn c.item hi hch.1
    · exact hown ⟨c.item,hi,hch.1⟩

def behind (c : Cursor Transfer) (l : List Transfer) : Cursor Transfer :=
  { c with after := c.after ++ l }

theorem behind_list (c : Cursor Transfer) (l : List Transfer) :
    (behind c l).list = c.list ++ l := by
  unfold behind Cursor.list
  rw [List.append_assoc]
  rfl

theorem behind_erase : (behind c l).erase = c.erase ++ l := by
  unfold behind Cursor.erase
  rw [List.append_assoc]

def Covered (available : List Transfer) (g : Transfers) : Prop :=
  ∀ t ∈ available, t ∈ g.available ∨ ∃ p ∈ g.spent, p.output.descriptor = t.descriptor

theorem chosen_parallel (h : Parallel unconfirmedBlock block tx globalIndices transfers g g')
    (hcov : Covered available g) (hl : c.list = g.available) (hch : Chosen g c input)
    (hown : ¬ SpendsOwn block tx globalIndices transfers available input) :
    Chosen g' (behind c (blockOutputs block tx globalIndices transfers)) input := by
  cases input with
  | base _ => exact hch
  | multisignature _ _ _ => exact hch
  | key _ _ _ =>
    obtain ⟨hsp,hlds⟩ := hch
    refine ⟨?_,hlds.holds,hlds.before,?_⟩
    · rw [h.spent]
      refine List.forall_mem_map.mpr ?_
      intro p hp
      rw [respend_output]
      exact hsp p hp
    · intro o ho hp
      rcases List.mem_append.mp ho with ho | ho
      · exact hlds.after o ho hp
      · obtain ⟨hfor,ham⟩ := Bool.and_eq_true_iff.mp hp
        -- an older transfer is at least as early, and it is not spent
        by_contra hnot
        apply hown
        refine ⟨o,ho,hfor,of_decide_eq_true ham,?_⟩
        intro t ht hfor' ham'
        rcases hcov t ht with ht | ⟨p,hp,hd⟩
        · rw [← hl] at ht
          have hle := hlds.least ht (Bool.and_eq_true_iff.mpr ⟨hfor',decide_eq_true ham'⟩)
          exact (not_le.mp hnot).trans_le hle
        · have hff := hsp p hp
          unfold Transfer.isFor at hff
          rw [hd, of_decide_eq_true hfor', decide_eq_true rfl] at hff
          cases hff

section Runs

variable {i : ℕ} {inputs : List TransactionInput} {added added' : Bool} {g₁ g₁' : Transfers}

theorem copyToSpent_respend {hash : Hash} :
    copyToSpent (spent.map (SpentTransfer.respend block hash)) ⟨t, block, hash, i⟩ =
      (copyToSpent spent ⟨t, unconfirmedBlock, hash, i⟩).map
        (SpentTransfer.respend block hash) := by
  have hany : ((spent.map (SpentTransfer.respend block hash)).any fun q =>
      decide (q.output.descriptor = t.descriptor)) =
      spent.any fun q => decide (q.output.descriptor = t.descriptor) := by
    rw [List.any_map]
    congr 1
    funext q
    show decide ((q.respend block hash).output.descriptor = t.descriptor) = _
    rw [respend_output]
  have hl : SpentTransfer.respend block hash ⟨t, unconfirmedBlock, hash, i⟩ =
      ⟨t, block, hash, i⟩ := if_pos rfl
  unfold copyToSpent
  rw [hany]
  split_ifs
  · rfl
  · rw [List.map_append, List.map_singleton, hl]

theorem mem_copyToSpent {q : SpentTransfer} (h : q ∈ spent) : q ∈ copyToSpent spent p := by
  unfold copyToSpent
  split_ifs
  · exact h
  · exact List.mem_append_left _ h

theorem copyToSpent_descriptor (spent : List SpentTransfer) (p : SpentTransfer) :
    ∃ q ∈ copyToSpent spent p, q.output.descriptor = p.output.descriptor := by
  unfold copyToSpent
  split_ifs with hany
  · obtain ⟨q,hq,heq⟩ := List.any_eq_true.mp hany
    exact ⟨q,hq,of_decide_eq_true heq⟩
  · exact ⟨p,List.mem_append_right _ (List.mem_singleton_self p),rfl⟩

theorem covered_spend {b : TransactionBlockInfo} {hash : Hash} (h : Covered available g)
    (hl : c.list = g.available) :
    Covered available { g with
      available := c.erase
      spent := copyToSpent g.spent ⟨c.item, b, hash, i⟩ } := by
  intro t ht
  rcases h t ht with ht | ⟨p,hp,hd⟩
  · rw [← hl] at ht
    rcases List.mem_cons.mp (c.perm_list.mem_iff.mp ht) with rfl | ht
    · exact .inr (copyToSpent_descriptor g.spent _)
    · exact .inl ht
  · exact .inr ⟨p,mem_copyToSpent hp,hd⟩

theorem parallel_run (hrun : Spending unconfirmedBlock tx.transactionHash i inputs g added g₁)
    (hrun' : Spending block tx.transactionHash i inputs g' added' g₁')
    (h : Parallel unconfirmedBlock block tx globalIndices transfers g g')
    (hcov : Covered available g)
    (hown : ∀ input ∈ inputs, ¬ SpendsOwn block tx globalIndices transfers available input) :
    added = added' ∧ Parallel unconfirmedBlock block tx globalIndices transfers g₁ g₁' := by
  induction hrun generalizing g' added' g₁' with
  | done _ _ =>
    cases hrun'
    exact ⟨rfl,h⟩
  | foreign hfgn _ ih =>
    obtain ⟨hfst,hlat⟩ := List.forall_mem_cons.mp hown
    cases hrun' with
    | foreign _ hr' => exact ih hr' h hcov hlat
    | spend hl hch _ =>
      exact absurd hch (foreign_parallel h hfgn hfst hl)
  | spend hl hch _ ih =>
    obtain ⟨hfst,hlat⟩ := List.forall_mem_cons.mp hown
    have hs := chosen_parallel h hcov hl hch hfst
    have hwh := behind_list _ (blockOutputs block tx globalIndices transfers) |>.trans
      (hl ▸ h.available.symm)
    cases hrun' with
    | foreign hfgn' _ => exact absurd hfgn' (chosen_not_foreign hs hwh)
    | spend hl' hch' hr' =>
      obtain rfl := chosen_unique hch' hs (hl'.trans hwh.symm)
      obtain ⟨-,hpar⟩ := ih hr' ⟨h.unconfirmed,behind_erase,
        h.spent ▸ copyToSpent_respend⟩ (covered_spend hcov hl) hlat
      exact ⟨rfl,hpar⟩

end Runs

end Sides

section Effects

variable {block : TransactionBlockInfo} {hash : Hash} {i : ℕ} {inputs : List TransactionInput}
  {added : Bool} {g g' : Transfers}

theorem spending_unconfirmed (h : Spending block hash i inputs g added g') :
    g'.unconfirmed = g.unconfirmed := by
  induction h with
  | done _ _ => rfl
  | foreign _ _ ih => exact ih
  | spend _ _ _ ih => exact ih

theorem spending_stays (h : Spending block hash i inputs g added g') (hp : p ∈ g.spent)
    : p ∈ g'.spent := by
  induction h with
  | done _ _ => exact hp
  | foreign _ _ ih => exact ih hp
  | spend _ _ _ ih => exact ih (mem_copyToSpent hp)

theorem spending_from (h : Spending block hash i inputs g added g') :
    ∀ p ∈ g'.spent, p.output ∈ holdings g := by
  induction h with
  | done _ _ => exact fun p hp => mem_spent hp
  | foreign _ _ ih => exact ih
  | @spend _ _ _ g _ _ cur hl _ _ ih =>
    intro p hp
    have hi : cur.item ∈ g.available := hl ▸ cur.item_mem
    rcases List.mem_append.mp (ih p hp) with hp | hp
    · exact mem_available (hl ▸ cur.erase_subset hp)
    · obtain ⟨_,hq,ho⟩ := List.mem_map.mp hp
      rw [← ho]
      rcases of_mem_copyToSpent hq with hq | rfl
      · exact mem_spent hq
      · exact mem_available hi

theorem spending_multisignature (h : Spending block hash i inputs g added g') {sc : UInt8}
    {oi : UInt32} (hin : TransactionInput.multisignature amount sc oi ∈ inputs)
    (ht : t.descriptor = .multisignature amount oi.toNat)
    (hcov : Covered [t] g) : ∃ p ∈ g'.spent, p.output.descriptor = t.descriptor := by
  induction h with
  | done _ _ => cases hin
  | foreign hfgn hr ih =>
    rcases List.mem_cons.mp hin with rfl | hin
    · rcases hcov t (List.mem_singleton_self t) with hmem | ⟨p,hp,hd⟩
      · exact absurd ht (hfgn t hmem)
      · exact ⟨p,spending_stays hr hp,hd⟩
    · exact ih hin hcov
  | @spend i _ _ g _ _ cur hl hch hr ih =>
    rcases List.mem_cons.mp hin with rfl | hin
    · obtain ⟨p,hp,hd⟩ := copyToSpent_descriptor g.spent ⟨cur.item, block, hash, i⟩
      exact ⟨p,spending_stays hr hp,hd.trans (hch.1.trans ht.symm)⟩
    · exact ih hin (covered_spend hcov hl)

theorem spending_once (h : Spending block hash i inputs g added g')
    (hin : TransactionInput.key amount ois ki ∈ inputs) (hp : p ∈ g.spent)
    : p.output.isFor ki = false := by
  induction h with
  | done _ _ => cases hin
  | foreign hfgn _ ih =>
    rcases List.mem_cons.mp hin with rfl | hin
    · exact hfgn.1 p hp
    · exact ih hin hp
  | spend _ hch _ ih =>
    rcases List.mem_cons.mp hin with rfl | hin
    · exact hch.1 p hp
    · exact ih hin (mem_copyToSpent hp)

theorem spending_key (h : Spending block hash i inputs g added g')
    (hin : TransactionInput.key amount ois ki ∈ inputs) (ho : o ∈ g.available)
    (hfor : o.isFor ki = true) (ham : o.amount = amount)
    (hea : ∀ t ∈ g.available, t.isFor ki = true → t.amount = amount →
      t.transactionHash = o.transactionHash ∨ o.place < t.place) :
    ∃ p ∈ g'.spent, p.output.transactionHash = o.transactionHash := by
  induction h with
  | done _ _ => cases hin
  | foreign hfgn _ ih =>
    rcases List.mem_cons.mp hin with rfl | hin
    · rw [hfgn.2.1 o ho] at hfor
      cases hfor
    · exact ih hin ho hea
  | @spend i _ _ g _ _ cur hl hch hr ih =>
    have hi : cur.item ∈ g.available := hl ▸ cur.item_mem
    rcases List.mem_cons.mp hin with rfl | hin
    · -- the transfer taken is not behind the own output
      obtain ⟨hitemFor,hitemAmount⟩ := Bool.and_eq_true_iff.mp hch.2.holds
      have hle : cur.item.place ≤ o.place := by
        apply hch.2.least (hl ▸ ho)
        exact Bool.and_eq_true_iff.mpr ⟨hfor,decide_eq_true ham⟩
      have hh := (hea cur.item hi hitemFor
        (of_decide_eq_true hitemAmount)).resolve_right (not_lt.mpr hle)
      refine ⟨⟨cur.item, block, hash, i⟩,spending_stays hr ?_,hh⟩
      dsimp only
      rw [copyToSpent_append]
      · exact List.mem_append_right _ (List.mem_singleton_self _)
      · intro q hq heq
        exact Bool.eq_false_iff.mp (hch.1 q hq) (isFor_of_descriptor heq hitemFor)
    · have hoth : cur.item.isFor ki = false := by
        apply Bool.eq_false_iff.mpr
        intro hs
        obtain ⟨q,hq,hd⟩ := copyToSpent_descriptor g.spent ⟨cur.item, block, hash, i⟩
        exact Bool.eq_false_iff.mp (spending_once hr hin hq) (isFor_of_descriptor hd hs)
      have ho' : o ∈ cur.erase := by
        rcases List.mem_cons.mp (cur.perm_list.mem_iff.mp (hl ▸ ho)) with rfl | ho
        · rw [hoth] at hfor
          cases hfor
        · exact ho
      exact ih hin ho' fun t ht => hea t (hl ▸ cur.erase_subset ht)

end Effects

section Ways

variable {unconfirmedBlock block : TransactionBlockInfo} {tx : TransactionReader}
  {globalIndices : List ℕ} {transfers : List TransactionOutputInformationIn}
  {S c₁ c₂ c : TransfersContainer} {added found added' : Bool}

theorem unknown_other {g : Transfers} {hash : Hash} (h : Books T g)
    (hnew : ∀ info ∈ T, info.transactionHash ≠ hash) :
    (∀ t, t ∈ g.unconfirmed ∨ t ∈ holdings g → t.transactionHash ≠ hash) ∧
      ∀ p ∈ g.spent, p.spendingTransactionHash ≠ hash := by
  constructor
  · intro t ht heq
    obtain ⟨info,hi,hh,-⟩ := h.mem_transaction ht
    exact hnew info hi (hh.trans heq)
  · intro p hp heq
    obtain ⟨info,hi,hh,-⟩ := h.spending p hp
    exact hnew info hi (hh.trans heq)

theorem start_parallel (hunconfirmed : unconfirmedBlock.height = unconfirmedHeight)
    (hblk : block.height ≠ unconfirmedHeight) {g : Transfers}
    (hoth : ∀ p ∈ g.spent, p.spendingTransactionHash ≠ tx.transactionHash) :
    Parallel unconfirmedBlock block tx globalIndices transfers
      (received unconfirmedBlock tx transfers g)
      (received block tx (transfers.map (withIndex globalIndices)) g) := by
  have hs : g.spent.map (SpentTransfer.respend block tx.transactionHash) = g.spent := by
    refine (List.map_congr_left ?_).trans (List.map_id _)
    exact fun p hp => if_neg (hoth p hp)
  unfold received
  rw [if_pos hunconfirmed, if_neg hblk]
  exact ⟨rfl,rfl,hs.symm⟩

theorem marked_parallel {g g' : Transfers}
    (h : Parallel unconfirmedBlock block tx globalIndices transfers g g')
    (hoth : ∀ t ∈ g'.unconfirmed, t.transactionHash ≠ tx.transactionHash) :
    marked block tx.transactionHash globalIndices g = g' := by
  have hown : ∀ t ∈ waitingOutputs unconfirmedBlock tx transfers,
      decide (t.transactionHash = tx.transactionHash) = true :=
    List.forall_mem_map.mpr fun _ _ => decide_eq_true rfl
  have hold : ∀ t ∈ g'.unconfirmed, decide (t.transactionHash = tx.transactionHash) = false :=
    fun t ht => decide_eq_false (hoth t ht)
  have hw : waiting tx.transactionHash g = waitingOutputs unconfirmedBlock tx transfers := by
    have hn : (g'.unconfirmed.filter fun t => decide (t.transactionHash = tx.transactionHash)) =
        [] := by
      apply List.filter_eq_nil_iff.mpr
      exact fun t ht => Bool.eq_false_iff.mp (hold t ht)
    rw [waiting, h.unconfirmed, List.filter_append, hn, List.nil_append]
    exact List.filter_eq_self.mpr hown
  have hr : (g.unconfirmed.filter fun t => !decide (t.transactionHash = tx.transactionHash)) =
      g'.unconfirmed := by
    have hn : ((waitingOutputs unconfirmedBlock tx transfers).filter fun t =>
        !decide (t.transactionHash = tx.transactionHash)) = [] := by
      apply List.filter_eq_nil_iff.mpr
      intro t ht
      rw [hown t ht]
      exact Bool.false_ne_true
    rw [h.unconfirmed, List.filter_append, hn, List.append_nil]
    apply List.filter_eq_self.mpr
    intro t ht
    rw [hold t ht]
    rfl
  apply Transfers.ext
  · exact hr
  · show g.available ++ (waiting tx.transactionHash g).map _ = g'.available
    rw [hw, waiting_confirmed, h.available]
  · exact h.spent.symm

theorem transaction_new (unconfirmedBlock : TransactionBlockInfo) (s : Transfers)
    (hnew : ∀ info ∈ S.transactions, info.transactionHash ≠ tx.transactionHash) :
    (TransfersContainer.record { S with toTransfers := s } unconfirmedBlock tx true).transaction
      tx.transactionHash = some (transactionInformation unconfirmedBlock tx) := by
  cases hf : (TransfersContainer.record { S with toTransfers := s } unconfirmedBlock tx
      true).transaction tx.transactionHash with
  | none => exact absurd rfl (transaction_none.mp hf _ (mem_insertByHeight.mpr (.inl rfl)))
  | some info =>
    obtain ⟨hi,hh⟩ := transaction_some hf
    rcases mem_insertByHeight.mp hi with rfl | hi
    · rfl
    · exact absurd hh (hnew info hi)

theorem replace_new (h : Indexed T) (hunconfirmed : unconfirmedBlock.height = unconfirmedHeight)
    (hnew : ∀ info ∈ T, info.transactionHash ≠ tx.transactionHash) :
    replaceTransaction ((transactionInformation unconfirmedBlock tx).confirmed block)
        (insertByHeight (transactionInformation unconfirmedBlock tx) T) =
      insertByHeight (transactionInformation block tx) T := by
  have hixd : Indexed (insertByHeight (transactionInformation unconfirmedBlock tx) T) :=
    h.insert hnew hunconfirmed.le
  have hera : (insertByHeight (transactionInformation unconfirmedBlock tx) T).eraseP
      (fun info => decide (info.transactionHash = tx.transactionHash)) = T := by
    rw [hixd.erase, filter_insertByHeight]
    · apply List.filter_eq_self.mpr
      intro info hi
      rw [decide_eq_false (hnew info hi)]
      rfl
    · show (!decide (tx.transactionHash = tx.transactionHash)) = false
      rw [decide_eq_true rfl]
      rfl
  show insertByHeight (transactionInformation block tx) _ = _
  exact congrArg (insertByHeight (transactionInformation block tx)) hera

section Both

variable (hS : AnySession S) (hunconfirmed : unconfirmedBlock.height = unconfirmedHeight)
  (hadd : addTransaction unconfirmedBlock tx transfers S = .ok added c₁)
  (hmark : markTransactionConfirmed block tx.transactionHash globalIndices c₁ = .ok found c₂)

include hS hunconfirmed hadd hmark

theorem add_and_mark : ∃ spent s, Added unconfirmedBlock tx transfers S spent s ∧
    added = (!transfers.isEmpty || spent) ∧ block.height ≠ unconfirmedHeight ∧
    (added = true → contents c₂.toTransfers =
        marked block tx.transactionHash globalIndices (contents s) ∧
      c₂.transactions = insertByHeight (transactionInformation block tx) S.transactions) ∧
    (added = false → contents c₂.toTransfers = contents S.toTransfers ∧
      c₂.transactions = S.transactions) := by
  obtain ⟨spent,s,had,hval,rfl⟩ := addTransaction_ok hadd
  have hnew := transaction_none.mp had.unknown
  have hblk : block.height ≠ unconfirmedHeight := by
    intro hblk
    rw [markTransactionConfirmed, if_pos hblk] at hmark
    cases hmark
  refine ⟨spent,s,had,hval,hblk,?_,?_⟩
  · rintro rfl
    have hi := transaction_new unconfirmedBlock s hnew
    by_cases hcf : AllConfirm block tx.transactionHash globalIndices (contents s)
    · obtain ⟨s₂,hrun,hs₂⟩ := mark_ok hblk hi hunconfirmed hcf
      rw [hrun] at hmark
      cases hmark
      exact ⟨hs₂,replace_new (session_books hS).indexed hunconfirmed hnew⟩
    · obtain ⟨_,s₂,hrun⟩ := mark_error hblk hi hunconfirmed hcf
      rw [hrun] at hmark
      cases hmark
  · rintro rfl
    rw [mark_unknown hblk] at hmark
    · cases hmark
      exact ⟨had.unchanged hval.symm,rfl⟩
    · intro info hi
      exact absurd (transaction_some hi).2 (hnew info (transaction_some hi).1)

theorem ways_agree
    (hdir : addTransaction block tx (transfers.map (withIndex globalIndices)) S = .ok added' c)
    (hown : ∀ inp ∈ tx.inputs, ¬ SpendsOwn block tx globalIndices transfers
      (contents S.toTransfers).available inp) :
    c₂.transactions = c.transactions ∧ c₂.toTransfers = c.toTransfers := by
  obtain ⟨_,_,had,hval,hblk,htr,hff⟩ := add_and_mark hS hunconfirmed hadd hmark
  have hcd : Called c₂ := by
    have h₁ := (session_called hS).add unconfirmedBlock tx transfers
    rw [hadd] at h₁
    have h₂ := h₁.mark block tx.transactionHash globalIndices
    rw [show left (EStateM.Result.ok added c₁) = c₁ from rfl, hmark] at h₂
    exact h₂
  have hcd' : Called c := by
    have h₁ := (session_called hS).add block tx (transfers.map (withIndex globalIndices))
    rw [hdir] at h₁
    exact h₁
  obtain ⟨_,s',had',hval',rfl⟩ := addTransaction_ok hdir
  obtain ⟨hoth,hspg⟩ := unknown_other (session_books hS) (transaction_none.mp had.unknown)
  obtain ⟨rfl,hp⟩ := parallel_run had.spending had'.spending
    (start_parallel hunconfirmed hblk hspg) (fun t ht => .inl (by
      unfold received
      rw [if_pos hunconfirmed]
      exact ht)) hown
  have hs : added = added' := by
    rw [hval, hval', List.isEmpty_map]
  subst hs
  have hc : contents c₂.toTransfers = contents s' ∧ c₂.transactions =
      (TransfersContainer.record { S with toTransfers := s' } block tx added).transactions := by
    cases added with
    | true =>
      obtain ⟨hmk,htxs⟩ := htr rfl
      refine ⟨?_,htxs⟩
      rw [hmk]
      apply marked_parallel hp
      rw [spending_unconfirmed had'.spending]
      unfold received
      rw [if_neg hblk]
      exact fun t ht => hoth t (.inl ht)
    | false =>
      obtain ⟨hu,htxs⟩ := hff rfl
      exact ⟨hu.trans (had'.unchanged hval'.symm).symm,htxs⟩
  refine ⟨hc.2,?_⟩
  exact eq_of_contents (called_settled hcd) (called_plain hcd) (called_settled hcd')
    (called_plain hcd') hc.1

theorem first_way_spent : ∀ p ∈ (contents c₂.toTransfers).spent,
    p.output ∈ holdings (contents S.toTransfers) := by
  obtain ⟨spent,_,had,-,-,ht,hff⟩ := add_and_mark hS hunconfirmed hadd hmark
  have hf := spending_from had.spending
  unfold received at hf
  rw [if_pos hunconfirmed] at hf
  cases added with
  | true =>
    rw [(ht rfl).1]
    refine List.forall_mem_map.mpr ?_
    intro p hp
    rw [respend_output]
    exact hf p hp
  | false =>
    rw [(hff rfl).1]
    exact fun p hp => mem_spent hp

theorem ways_differ
    (hdir : addTransaction block tx (transfers.map (withIndex globalIndices)) S = .ok added' c)
    {inp : TransactionInput} (hin : inp ∈ tx.inputs)
    (hown : SpendsOwn block tx globalIndices transfers (contents S.toTransfers).available inp) :
    ¬ Alike c₂.toTransfers c.toTransfers := by
  intro halk
  have hfst := first_way_spent hS hunconfirmed hadd hmark
  obtain ⟨spent,_,had,-,hblk,-,-⟩ := add_and_mark hS hunconfirmed hadd hmark
  obtain ⟨hoth,-⟩ := unknown_other (session_books hS) (transaction_none.mp had.unknown)
  obtain ⟨_,s',had',-,rfl⟩ := addTransaction_ok hdir
  -- what is spent with the block was there before
  have hb : ∀ p ∈ (contents s').spent, p.output ∈ holdings (contents S.toTransfers) :=
    fun p hp => hfst p ((halk.spent.map spentCore).mem_iff.mpr hp)
  have hspg := had'.spending
  unfold received at hspg
  rw [if_neg hblk] at hspg
  cases inp with
  | base _ => exact hown
  | key _ _ _ =>
    obtain ⟨o,ho,hfor,ham,hea⟩ := hown
    have hh : ∀ t ∈ blockOutputs block tx globalIndices transfers,
        t.transactionHash = tx.transactionHash := List.forall_mem_map.mpr fun _ _ => rfl
    obtain ⟨p,hp,hs⟩ := spending_key hspg hin (List.mem_append_right _ ho) hfor ham (by
      intro t ht hfor' ham'
      rcases List.mem_append.mp ht with ht | ht
      · exact .inr (hea t ht hfor' ham')
      · exact .inl ((hh t ht).trans (hh o ho).symm))
    exact hoth _ (.inr (hb p hp)) (hs.trans (hh o ho))
  | multisignature _ _ _ =>
    obtain ⟨o,ho,hd⟩ := hown
    have hcov : Covered [o] ⟨(contents S.toTransfers).unconfirmed,
        (contents S.toTransfers).available ++ blockOutputs block tx globalIndices transfers,
        (contents S.toTransfers).spent⟩ := by
      intro t ht
      rw [List.mem_singleton.mp ht]
      exact .inl (List.mem_append_right _ ho)
    obtain ⟨p,hp,hs⟩ := spending_multisignature hspg hin hd hcov
    obtain ⟨u,hu,rfl⟩ := List.mem_map.mp ho
    have hfr := ((allFit_contents had'.fit).fresh hblk).unknown u hu
    exact not_clash (u := core (stored block tx u)) hfr (hb p hp) ⟨kind_of_descriptor hd,hs⟩

end Both

theorem spendsOwn_contents {inp : TransactionInput} :
    SpendsOwn block tx globalIndices transfers (l.map core) inp ↔
      SpendsOwn block tx globalIndices transfers l inp := by
  cases inp with
  | base _ => rfl
  | multisignature _ _ _ => rfl
  | key _ _ _ =>
    unfold SpendsOwn
    simp only [List.forall_mem_map]
    rfl

/-- If the outputs of a transaction have different key images, adding it
without a block and confirming it gives the same as adding it with the block,
if and only if with the block no input takes an output of the transaction
itself; no choice between these outputs is left to their order. -/
theorem confirm_as_direct_iff (hS : AnySession S) (hkeys : (ownImages transfers).Nodup)
    (hunconfirmed : unconfirmedBlock.height = unconfirmedHeight)
    (hadd : addTransaction unconfirmedBlock tx transfers S = .ok added c₁)
    (hmark : markTransactionConfirmed block tx.transactionHash globalIndices c₁ = .ok found c₂)
    (hdirect : addTransaction block tx (transfers.map (withIndex globalIndices)) S = .ok added' c) :
    ((c₂.transactions = c.transactions ∧ Alike c₂.toTransfers c.toTransfers) ↔
      ∀ input ∈ tx.inputs, ¬ SpendsOwn block tx globalIndices transfers S.available input) ∧
    ∀ ki, ∀ o ∈ blockOutputs block tx globalIndices transfers,
      ∀ o' ∈ blockOutputs block tx globalIndices transfers,
        o.isFor ki = true → o'.isFor ki = true → o = o' := by
  refine ⟨?_,fun ki o ho o' ho' => own_unique hkeys ho ho'⟩
  constructor
  · rintro ⟨-,halk⟩ input hin hown
    exact ways_differ hS hunconfirmed hadd hmark hdirect hin (spendsOwn_contents.mpr hown) halk
  · intro hown
    obtain ⟨htxs,htfs⟩ := ways_agree hS hunconfirmed hadd hmark hdirect
      fun input hin h => hown input hin (spendsOwn_contents.mp h)
    refine ⟨htxs,?_⟩
    rw [htfs]
    exact ⟨.refl _,.refl _,.refl _⟩

end Ways

def sampleMultisignature (globalOutputIndex : ℕ) : TransactionOutputInformationIn :=
  { sampleTransfer 50 globalOutputIndex 0 0 with kind := .multisignature 1 }

def sampleSpender : TransactionReader := sampleReader 1 [.multisignature 50 1 3]

def sampleAdded : TransfersContainer :=
  left (addTransaction ⟨unconfirmedHeight, 0, 0⟩ sampleSpender
    [sampleMultisignature unconfirmedIndex] .empty)

def sampleMarked (index : ℕ) : TransfersContainer :=
  left (markTransactionConfirmed ⟨5, 0, 0⟩ 1 [index] sampleAdded)

def sampleDirect (index : ℕ) : TransfersContainer :=
  left (addTransaction ⟨5, 0, 0⟩ sampleSpender [sampleMultisignature index] .empty)

theorem confirm_as_direct_sample : (sampleMarked 4).available.length = 1 ∧
    (sampleMarked 4).transactions = (sampleDirect 4).transactions ∧
    Alike (sampleMarked 4).toTransfers (sampleDirect 4).toTransfers := by
  have hadd : addTransaction ⟨unconfirmedHeight, 0, 0⟩ sampleSpender
      [sampleMultisignature unconfirmedIndex] .empty = .ok true sampleAdded := rfl
  have hmark : markTransactionConfirmed ⟨5, 0, 0⟩ sampleSpender.transactionHash [4] sampleAdded =
      .ok true (sampleMarked 4) := rfl
  have hdir : addTransaction ⟨5, 0, 0⟩ sampleSpender
      ([sampleMultisignature unconfirmedIndex].map (withIndex [4])) .empty =
      .ok true (sampleDirect 4) := rfl
  refine ⟨by decide +kernel,(confirm_as_direct_iff .empty (by decide) rfl hadd hmark hdir).1.mpr ?_⟩
  intro input hin
  rw [List.mem_singleton.mp hin]
  rintro ⟨_,ho,hd⟩
  rw [List.mem_singleton.mp ho] at hd
  revert hd
  decide +kernel

/-- With the index 3, the input takes the own output, but only with the block. -/
theorem own_output_spent : ∃ c₁ c₂ c, addTransaction ⟨unconfirmedHeight, 0, 0⟩ sampleSpender
        [sampleMultisignature unconfirmedIndex] .empty = .ok true c₁ ∧
      markTransactionConfirmed ⟨5, 0, 0⟩ sampleSpender.transactionHash [3] c₁ = .ok true c₂ ∧
      addTransaction ⟨5, 0, 0⟩ sampleSpender
        ([sampleMultisignature unconfirmedIndex].map (withIndex [3])) .empty = .ok true c ∧
      (c₂.available.length, c₂.spent.length) = (1, 0) ∧
      (c.available.length, c.spent.length) = (0, 1) :=
  ⟨sampleAdded,sampleMarked 3,sampleDirect 3,rfl,rfl,rfl,by decide +kernel,by decide +kernel⟩

end Orbis.WalletConfirm
