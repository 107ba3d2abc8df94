import Orbis.ChainRun

/-!
# Blocks that leave the chain as it was

A refused block leaves blocks, indexes and tables as they were unless it got
as far as the size check and failed there. A block that was accepted and is
removed again leaves them as they were too, and its transactions go back to
the pool: their inputs are still marked as spent at that point, so the pool
stores them without looking at a signature.
-/

set_option autoImplicit false

namespace Orbis.ChainRestore

open FaultState ChainTypes ChainSemantic ChainTables ChainInputs ChainBlock ChainPool ChainPoolIndex
open ChainStack ChainSound ChainNode ChainHeld ChainHistory ChainRun

variable {env : Env} {U : Set Transaction} {clock now : UInt64}

variable {m : MainChain} {b : Block} {txs : List Transaction} {tx : Transaction} {n : Node}

theorem filledTables_ne (hU : TxInj env U) (hm : Sound env U m) (hoff : Offered env U b txs)
    (ho : Oversized env now m b txs) : m.setTables (filledTables env m b txs) ≠ m := by
  intro heq
  obtain ⟨_,hhd⟩ := ho.header
  have hfr := fresh_coinbase env hU hm.recorded hoff.base (prevalidate_inputs env hhd.miner)
  have hmem : env.getObjectHash b.baseTransaction ∈ (filledTables env m b txs).transactionMap := by
    refine mem_transactionMap_enterAll env ?_
    rw [entered, MainChain.setTables_tables, enter, applyTransaction_transactionMap]
    exact Finmap.mem_insert.mpr (.inl rfl)
  rw [← MainChain.setTables_tables m (filledTables env m b txs), heq] at hmem
  exact hfr hmem

/-- After any run of accepted blocks, take a block that pays no multisignature
amount for the first time. A refusal by `pushBlock` leaves the chain as it was
exactly when it is not for the size of the block, and a call that does not
return fails in the checks of the inputs or in the 16-bit counter. -/
theorem refused_block_restores_iff (hst : Storable env U) {n : Node}
    (hrun : AcceptedRun env U clock n) {b : Block} {txs : List Transaction}
    (hoffered : Offered env U b txs) (hlast : LastingAll n.main b txs) :
    ((∀ bvc m', pushBlock env now b txs n.main = .ok (false, bvc) m' → m' = n.main) ↔
      ¬ Oversized env now n.main b txs) ∧
    ∀ fault left, pushBlock env now b txs n.main = .error fault left →
      2 ^ 16 ≤ b.baseTransaction.outputs.length ∨
        checkBlockInputs env now n.main b txs = .error fault := by
  have hU := hst.injective
  have hsd := (good_of_acceptedRun hU hrun).built.sound hU
  refine ⟨⟨?_,?_⟩,?_⟩
  · intro hr ho
    rcases pushBlock_cases now hU hsd hoffered with
      ⟨_,-,hnot⟩ | ⟨_,_,-,hnot,-⟩ | ⟨-,hc⟩ | ⟨_,_,hacc,-⟩
    · exact hnot ho
    · exact hnot ho
    · exact filledTables_ne hU hsd hoffered ho (hr _ _ hc)
    · have hs := ho.size
      rw [hacc.size] at hs
      cases hs
  · intro hnot bvc m' hc
    rcases pushBlock_cases now hU hsd hoffered with
      ⟨_,hca,-⟩ | ⟨_,_,hca,-⟩ | ⟨ho,-⟩ | ⟨_,_,-,hca⟩
    · rw [hca] at hc
      cases hc
      rfl
    · rw [hca] at hc
      cases hc
    · exact absurd ho hnot
    · rw [hca] at hc
      cases hc
  · intro fault left hc
    rcases pushBlock_cases now hU hsd hoffered with
      ⟨_,hca,-⟩ | ⟨_,_,hca,-,hwhy⟩ | ⟨-,hca⟩ | ⟨_,_,-,hca⟩
    · rw [hca] at hc
      cases hc
    · rw [hca] at hc
      cases hc
      exact hwhy.imp_right fun h => h.resolve_right fun hnew => hnew.2 hlast
    · rw [hca] at hc
      cases hc
    · rw [hca] at hc
      cases hc

def sampleReward : Transaction := mint 2 1 5297658301515 (.key 1)

def sampleSpend (label : UInt8) (outputs : List TransactionOutput) : Transaction where
  version := 1
  unlockTime := 0
  inputs := [.multisignature 5297660827636 0 0]
  outputs := outputs
  extra := [label]
  signatures := [[]]
  signed := genesisSpend_signed

def fullSpend (label : UInt8) : Transaction := sampleSpend label [⟨5297660827636, .key 1⟩]

def fullSpends : Set Transaction :=
  {sampleCoinbase, sampleReward, fullSpend 3, fullSpend 4}

theorem fullSpends_storable : Storable sampleEnv fullSpends where
  injective := by
    rintro x (rfl | rfl | rfl | rfl) y (rfl | rfl | rfl | rfl) h
    all_goals first | rfl | exact absurd h (by decide)
  amounts := by
    rintro x (rfl | rfl | rfl | rfl)
    all_goals decide
  images := by
    rintro x (rfl | rfl | rfl | rfl)
    all_goals decide

theorem fullSpends_offered (nonce : UInt32) (labels : List UInt8)
    (h : ∀ label ∈ labels, label = 3 ∨ label = 4) (hcount : labels.length < 2 ^ 16) :
    Offered sampleEnv fullSpends
      (mine nonce 1 111 sampleReward (labels.map fun label => label.toNat))
      (labels.map fullSpend) where
  base := .inr (.inl rfl)
  known := by
    intro tx htx
    obtain ⟨label,hl,rfl⟩ := List.mem_map.mp htx
    rcases h label hl with rfl | rfl
    · exact .inr (.inr (.inl rfl))
    · exact .inr (.inr (.inr rfl))
  semantic := by
    intro tx htx
    obtain ⟨label,hl,rfl⟩ := List.mem_map.mp htx
    rcases h label hl with rfl | rfl <;> decide
  hashes := by
    rw [List.map_map]
    rfl
  count := by rwa [List.length_map]

theorem refused_block_restores_iff_sample :
    ∃ bvc, pushBlock sampleEnv 111 (mine 2 1 111 sampleReward [3, 4]) [fullSpend 3, fullSpend 4]
      sampleNode.main = .ok (false, bvc) sampleNode.main := by
  have hnot : ¬ Oversized sampleEnv 111 sampleNode.main (mine 2 1 111 sampleReward [3, 4])
      [fullSpend 3, fullSpend 4] := by
    rintro ⟨-,-,hins,-⟩
    exact absurd hins (by decide)
  have hc : pushBlock sampleEnv 111 (mine 2 1 111 sampleReward [3, 4])
      [fullSpend 3, fullSpend 4] sampleNode.main = .ok (false, .failed) _ :=
    eq_ok_of_value (by decide)
  have hr := (refused_block_restores_iff fullSpends_storable
    (sampleNode_run ⟨.inl rfl,by decide⟩)
    (fullSpends_offered 2 [3, 4] (by simp) (by decide)) (by decide)).1.mpr hnot _ _ hc
  exact ⟨_,hc.trans (by rw [hr])⟩

def sampleWide : Transaction := mint 2 1 1 (.multisignature (List.replicate 700 1) 0)

def sampleTransactions : Set Transaction := {sampleCoinbase, sampleWide}

theorem sampleTransactions_storable : Storable sampleEnv sampleTransactions where
  injective := by
    rintro x (rfl | rfl) y (rfl | rfl) h
    all_goals first | rfl | exact absurd h (by decide)
  amounts := by
    rintro x (rfl | rfl)
    all_goals decide
  images := by
    rintro x (rfl | rfl)
    all_goals decide

theorem sampleWide_offered : Offered sampleEnv sampleTransactions (mine 2 1 111 sampleWide []) [] :=
  ⟨.inr rfl,by simp,by simp,rfl,by decide⟩

theorem sampleNode_accepted : AcceptedRun sampleEnv sampleTransactions 0 sampleNode :=
  sampleNode_run ⟨.inl rfl,by decide⟩

/-- A block at height one whose coinbase alone exceeds the limit of 20480
bytes: the call returns false, and the coinbase stays in the tables. -/
theorem oversized_block_remains : Storable sampleEnv sampleTransactions ∧
    AcceptedRun sampleEnv sampleTransactions 0 sampleNode ∧
    Offered sampleEnv sampleTransactions (mine 2 1 111 sampleWide []) [] ∧
    ∃ m', pushBlock sampleEnv 111 (mine 2 1 111 sampleWide []) [] sampleNode.main =
        .ok (false, .failed) m' ∧ sampleEnv.getObjectHash sampleWide ∈ m'.tables.transactionMap ∧
      sampleEnv.getObjectHash sampleWide ∉ sampleNode.main.tables.transactionMap := by
  refine ⟨sampleTransactions_storable,sampleNode_accepted,sampleWide_offered,_,
    eq_ok_of_value (by decide +kernel),?_,?_⟩
  · decide +kernel
  · decide

theorem checkInput_spent {bs : List BlockEntry} {t : Tables} (ph : Hash) {inp : TransactionInput}
    (h : SpentInput t inp) (sig : List Signature) (mu : ℕ) :
    checkInput env now bs t ph inp sig mu = .ok (false, mu) := by
  cases inp with
  | base _ => exact h.elim
  | key _ _ _ =>
    simp only [checkInput]
    split_ifs with hemp hsp
    · rfl
    · rfl
    · exact absurd h hsp
  | multisignature _ _ _ =>
    obtain ⟨_,hus,hu⟩ := h
    simp only [checkInput, validateInput, hus, hu, if_true]
    rfl

theorem checkInputsForPool_spent (now : UInt64) (hne : tx.inputs ≠ [])
    (hsp : ∀ inp ∈ tx.inputs, SpentInput m.tables inp) :
    checkInputsForPool env now m tx = .ok none := by
  have hchk : checkTransactionInputs env now m.blocks m.tables tx = .ok (false, 0) := by
    unfold checkTransactionInputs
    cases hins : tx.inputs with
    | nil => exact absurd hins hne
    | cons inp _ =>
      have hsgd := tx.signed
      cases hs : tx.signatures with
      | nil =>
        rw [hins, hs] at hsgd
        cases hsgd
      | cons _ _ =>
        rw [List.zip_cons_cons, checkInputs, checkInput_spent _ (hsp inp (by simp [hins]))]
        rfl
  unfold checkInputsForPool
  rw [hchk]
  rfl

theorem haveTx_eq_false_iff {id : Hash} {p : Pool} :
    haveTx id p = false ↔ ∀ x ∈ held p, x.1 ≠ id := by
  simp only [haveTx, List.any_eq_false, beq_iff_eq, held]
  constructor
  · rintro h x ⟨d,hd,rfl⟩
    exact h d hd
  · intro h d hd
    exact h (d.id, d.tx) ⟨d,hd,rfl⟩

theorem returnTx_spent (now : UInt64) (hp : PoolKnown env U n.pool)
    (htx : Known env U (env.getObjectHash tx, tx))
    (hsp : ∀ inp ∈ tx.inputs, SpentInput n.main.tables inp)
    (hnew : haveTx (env.getObjectHash tx) n.pool = false) :
    ∃ n', returnTx env now tx n = .ok true n' := by
  have hsem := (checkTxSemantic_iff env.ops _).mp htx.2.2
  obtain ⟨tvc,p,hadd⟩ := addTx_kept n.currentBlockCumulSzLimit (getObjectBinarySize tx)
    hp.tidy hsem (checkInputsForPool_spent now hsem.inputs_ne hsp) hnew
  have hr : reading (fun n : Node => addTx env now n.main n.currentBlockCumulSzLimit tx
      (env.getObjectHash tx) (getObjectBinarySize tx) true n.pool) n = .ok ((true, tvc), p) n :=
    (reading_ok _ _ _ _).mpr ⟨hadd,rfl⟩
  refine ⟨n.setPool p,?_⟩
  unfold returnTx
  rw [get_bind, bind_of_ok hr]
  rfl

theorem returnTxs_spent (now : UInt64) (txs : List Transaction) (hpo : PoolKnown env U n.pool)
    (htxs : ∀ tx ∈ txs, Known env U (env.getObjectHash tx, tx))
    (hsp : ∀ tx ∈ txs, ∀ inp ∈ tx.inputs, SpentInput n.main.tables inp)
    (hnd : (txs.map env.getObjectHash).Nodup)
    (hnew : ∀ tx ∈ txs, haveTx (env.getObjectHash tx) n.pool = false) :
    ∃ n', returnTxs env now txs n = .ok ⟨⟩ n' := by
  induction txs generalizing n with
  | nil => exact ⟨n,rfl⟩
  | cons tx rest ih =>
    rw [List.map_cons, List.nodup_cons] at hnd
    obtain ⟨_,hret⟩ := returnTx_spent now hpo (htxs tx (by simp))
      (hsp tx (by simp)) (hnew tx (by simp))
    obtain ⟨p,rfl,hp,hgr⟩ := returnTx_ok hpo (htxs tx (by simp)) hret
    have hh := held_of_kept hgr
    have hnew' : ∀ o ∈ rest, haveTx (env.getObjectHash o) p = false := by
      intro o hoth
      rw [haveTx_eq_false_iff, hh]
      rintro x (rfl | hx)
      · intro heq
        refine hnd.1 ?_
        rw [show env.getObjectHash tx = env.getObjectHash o from heq]
        exact List.mem_map_of_mem hoth
      · exact haveTx_eq_false_iff.mp (hnew o (List.mem_cons_of_mem _ hoth)) x hx
    obtain ⟨n',hr⟩ := ih (n := n.setPool p) hp (fun o hoth => htxs o (List.mem_cons_of_mem _ hoth))
      (fun o hoth => hsp o (List.mem_cons_of_mem _ hoth)) hnd.2 hnew'
    refine ⟨n',?_⟩
    rw [returnTxs, bind_of_ok hret]
    exact hr

theorem popBlock_extended (hU : TxInj env U) {n' : Node} (hsd : Sound env U n.main)
    (hp : PoolKnown env U n'.pool) {df : UInt64} {em : Int64} (hoff : Offered env U b txs)
    (hacc : Acceptance env now n.main b txs df em) (hm : n'.main = accepted env n.main b txs df em)
    (hout : ∀ x ∈ held n'.pool, x.1 ∉ b.transactionHashes)
    (hlast : LastingAll n.main b txs) (time : UInt64) :
    ∃ n'', popBlock env time (env.getBlockHash b) n' = .ok ⟨⟩ n'' ∧ n''.main = n.main := by
  have hl : n'.main.blocks.getLast? = some (acceptedEntry env n.main b txs df em) := by
    rw [hm, accepted_blocks, List.getLast?_concat]
  have hadm := admissible_filled hU hsd hoff hacc.header hacc.short hacc.inputs
  have hkn := known_of_offered hoff
  have hsp : ∀ tx ∈ txs, ∀ inp ∈ tx.inputs, SpentInput n'.main.tables inp := by
    intro tx htx inp hin
    have hsem := (checkTxSemantic_iff env.ops _).mp (hoff.semantic tx htx)
    rw [hm, accepted_tables]
    exact spentInput_of_entered (k := 0) env hadm (List.mem_cons_of_mem _ htx) hin
      (hsem.supported inp hin)
  have hnd : (txs.map env.getObjectHash).Nodup :=
    (List.nodup_cons.mp (nodup_of_admissibleAll env hadm).1).2
  have hnew : ∀ tx ∈ txs, haveTx (env.getObjectHash tx) n'.pool = false := by
    intro tx htx
    rw [haveTx_eq_false_iff]
    intro x hx heq
    refine hout x hx ?_
    rw [heq, hoff.hashes]
    exact List.mem_map_of_mem htx
  have htxs : ((acceptedEntry env n.main b txs df em).transactions.drop 1).map
      TransactionEntry.tx = txs := entry_transactions n.main b txs df em
  obtain ⟨_,hs⟩ := returnTxs_spent time txs.reverse hp
    (fun tx htx => hkn tx (List.mem_reverse.mp htx))
    (fun tx htx => hsp tx (List.mem_reverse.mp htx))
    (by rw [List.map_reverse]; exact List.nodup_reverse.mpr hnd)
    (fun tx htx => hnew tx (List.mem_reverse.mp htx))
  obtain ⟨p,rfl,-,-⟩ := saveTransactions_ok hp hkn hs
  have hpop : onMain (popStoredBlock env (env.getBlockHash b)) (n'.setPool p) =
      .ok ⟨⟩ ((n'.setPool p).setMain n.main) := by
    rw [onMain, within_ok]
    refine ⟨n.main,?_,rfl⟩
    change popStoredBlock env (env.getBlockHash b) n'.main = _
    rw [hm]
    exact (popStoredBlock_accepted hU hsd hoff hacc).resolve_right fun h => h.1 hlast
  refine ⟨(n'.setPool p).setMain n.main,?_,rfl⟩
  unfold popBlock
  rw [get_bind]
  simp only [hl, htxs]
  exact (bind_of_ok hs).trans hpop

theorem le_last (x : UInt64) : x ≤ 18446744073709551615 := by
  have hlt := x.toNat_lt
  rw [UInt64.le_iff_toNat_le]
  exact Nat.le_of_lt_succ hlt

/-- In every run whose blocks are within the size limit, a block that is
accepted and then removed leaves the whole chain as it was, if it pays no
multisignature amount for the first time. -/
theorem popBlock_restores (hst : Storable env U) {n n' : Node}
    (hrun : SizedRun env U clock n) {b : Block} (hb : Counted U b) {bvc : BlockVerificationContext}
    (hlast : ∀ txs, Offered env U b txs → LastingAll n.main b txs)
    (hpush : pushPoolBlock env now b n = .ok (true, bvc) n') (time : UInt64) :
    ∃ n'', popBlock env time (env.getBlockHash b) n' = .ok ⟨⟩ n'' ∧ n''.main = n.main := by
  have hU := hst.injective
  have hg := ((good_of_sizedRun hU hrun).mono (fun _ h => h.1)).later (le_last clock)
  obtain ⟨hk,-,ht⟩ := pushPoolBlock_kept hU (fun _ h => h) (le_last now) hg hb hpush
    (fun hff => Bool.noConfusion hff)
  obtain ⟨-,hout,_,_,_,hoff,hacc,hm⟩ := ht rfl
  exact popBlock_extended hU (hg.built.sound hU) hk.good.pool hoff hacc hm hout
    (hlast _ hoff) time

def pooledSpend : Node :=
  left (handleIncomingTransaction sampleEnv 0 (fullSpend 3) true sampleNode)

theorem pooledSpend_sized : SizedRun sampleEnv fullSpends 0 pooledSpend :=
  .transaction (sampleNode_sized (.inl rfl)) UInt64.le_rfl UInt64.le_rfl (.inr (.inr (.inl rfl)))
    (eq_ok_of_value (show _ = some (true, ⟨false, false, false, true, false⟩) from by decide))

def sampleNext : Node :=
  left (pushPoolBlock sampleEnv 111 (mine 3 1 111 sampleReward [3]) pooledSpend)

theorem popBlock_restores_sample :
    ∃ n'', popBlock sampleEnv 111 (sampleEnv.getBlockHash (mine 3 1 111 sampleReward [3]))
        sampleNext = .ok ⟨⟩ n'' ∧ n''.main = pooledSpend.main := by
  have hp : pushPoolBlock sampleEnv 111 (mine 3 1 111 sampleReward [3]) pooledSpend =
      .ok (true, .added) sampleNext := eq_ok_of_value (by decide)
  refine popBlock_restores fullSpends_storable pooledSpend_sized ⟨.inr (.inl rfl),by decide⟩
    (fun txs hoff tx htx out hout htgt => ?_) hp 111
  have hU : tx ∈ fullSpends := by
    rcases List.mem_cons.mp htx with rfl | hmem
    · exact .inr (.inl rfl)
    · exact hoff.known tx hmem
  rcases hU with rfl | rfl | rfl | rfl
  · rw [List.mem_singleton.mp hout]
    decide
  all_goals
    rw [List.mem_singleton.mp hout] at htgt
    cases htgt

def wideSpend : Transaction := sampleSpend 3 [⟨1, .multisignature (List.replicate 700 1) 0⟩]

def wideSpends : Set Transaction := {sampleCoinbase, sampleReward, wideSpend}

theorem wideSpends_storable : Storable sampleEnv wideSpends where
  injective := by
    rintro x (rfl | rfl | rfl) y (rfl | rfl | rfl) h
    all_goals first | rfl | exact absurd h (by decide)
  amounts := by
    rintro x (rfl | rfl | rfl)
    all_goals decide
  images := by
    rintro x (rfl | rfl | rfl)
    all_goals decide

def samplePooled : Node :=
  left (handleIncomingTransaction sampleEnv 0 wideSpend true sampleNode)

def sampleRefused : Node :=
  left (addNewBlock sampleEnv 111 0 (mine 2 1 111 sampleReward [3]) samplePooled)

theorem samplePooled_run :
    Run sampleEnv wideSpends (Counted wideSpends) False 0 samplePooled := by
  have hc : handleIncomingTransaction sampleEnv 0 wideSpend true sampleNode =
      .ok (true, ⟨true, false, false, true, false⟩) samplePooled :=
    eq_ok_of_value (by decide +kernel)
  exact .transaction (sampleNode_run ⟨.inl rfl,by decide⟩) UInt64.le_rfl UInt64.le_rfl
    (.inr (.inr rfl)) hc

theorem sampleRefused_run :
    Run sampleEnv wideSpends (Counted wideSpends) False 111 sampleRefused := by
  have hc : addNewBlock sampleEnv 111 0 (mine 2 1 111 sampleReward [3]) samplePooled =
      .ok (false, .failed) sampleRefused := eq_ok_of_value (by decide +kernel)
  exact .block samplePooled_run (by decide) UInt64.le_rfl ⟨.inr (.inl rfl),by decide⟩ hc False.elim

/-- A block refused for its size leaves its coinbase in the tables. A second
block with the same coinbase is accepted, and removing it takes out the
coinbase that was there before. -/
theorem popBlock_removes_residue : Storable sampleEnv wideSpends ∧
    Run sampleEnv wideSpends (Counted wideSpends) False 111 sampleRefused ∧
    ∃ n' n'', pushPoolBlock sampleEnv 111 (mine 3 1 111 sampleReward []) sampleRefused =
        .ok (true, .added) n' ∧ popBlock sampleEnv 111 3 n' = .ok ⟨⟩ n'' ∧
      sampleEnv.getObjectHash sampleReward ∈ sampleRefused.main.tables.transactionMap ∧
      sampleEnv.getObjectHash sampleReward ∉ n''.main.tables.transactionMap := by
  exact ⟨wideSpends_storable,sampleRefused_run,_,_,eq_ok_of_value (by decide +kernel),
    eq_ok_of_value (by decide +kernel),by decide +kernel,by decide +kernel⟩

end Orbis.ChainRestore
