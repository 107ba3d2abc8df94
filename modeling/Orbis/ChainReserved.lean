import Orbis.ChainIndices

/-!
# The reserved keys of the sparse tables

The tables of key outputs and of spent images are sparse hash tables, which
mark a deleted place with a key of their own: the amount zero and the image
of zeros. Such a key must never be stored. The outputs of a transaction are
tested for the amount zero when it enters the pool, those of a coinbase never
are, and no image is compared with the reserved one.
-/

set_option autoImplicit false

namespace Orbis.ChainReserved

open FaultState VectorTable ChainTypes ChainSemantic ChainTables ChainBlock
open ChainSound ChainBuilt ChainRun ChainLedger ChainPlaces ChainCache
open ChainIndices ChainRestore

structure ReservedFree (t : Tables) : Prop where
  outputs : deletedAmount ∉ t.outputs
  spentKeys : nullImage ∉ t.spentKeys

structure Unreserved (e : BlockEntry) : Prop where
  coinbase : ∀ out ∈ e.bl.baseTransaction.outputs, isKey out.target = true →
    out.amount ≠ deletedAmount
  images : ∀ entry ∈ e.transactions.drop 1, nullImage ∉ keyImages entry.tx.inputs

variable {env : Env} {U : Set Transaction} {P : Block → Prop} {ck : UInt64} {m : MainChain}

structure Stored (env : Env) (e : BlockEntry) : Prop where
  first : (e.transactions.map TransactionEntry.tx).head? = some e.bl.baseTransaction
  bare : keyImages e.bl.baseTransaction.inputs = []
  semantic : ∀ entry ∈ e.transactions.drop 1,
    checkTxSemantic env.ops entry.tx.toTransactionPrefix = true

theorem stored_of_built (h : Built env U P ck m) : ∀ e ∈ m.blocks, Stored env e := by
  refine h.entries ?_
  intro m now b txs df em allowed offered acceptance
  have hen := acceptedEntry_transactions env m b txs df em
  refine ⟨by rw [hen]; rfl,?_,?_⟩
  · rw [acceptedEntry_bl, prevalidate_inputs env acceptance.header.miner]
    rfl
  · intro en hent
    apply offered.semantic
    have hmem := List.mem_map_of_mem (f := TransactionEntry.tx) hent
    rw [List.map_drop, hen] at hmem
    exact hmem

theorem mem_allTransactions {bs : List BlockEntry} {tx : Transaction} :
    tx ∈ allTransactions bs ↔ ∃ e ∈ bs, ∃ en ∈ e.transactions, en.tx = tx := by
  simp [allTransactions]

theorem Stored.cases {e : BlockEntry} (h : Stored env e) {en : TransactionEntry}
    (hent : en ∈ e.transactions) : en.tx = e.bl.baseTransaction ∨ en ∈ e.transactions.drop 1 := by
  have hfst := h.first
  cases htxs : e.transactions with
  | nil =>
    rw [htxs] at hent
    cases hent
  | cons _ _ =>
    rw [htxs] at hfst hent
    rcases List.mem_cons.mp hent with rfl | hr
    · exact .inl (Option.some.inj hfst)
    · exact .inr hr

theorem Stored.coinbase_mem {e : BlockEntry} (h : Stored env e) :
    ∃ en ∈ e.transactions, en.tx = e.bl.baseTransaction := by
  have hmem := List.mem_of_mem_head? h.first
  exact List.mem_map.mp hmem

theorem deletedAmount_mem_iff (hU : TxInj env U) (h : Built env U P ck m) :
    deletedAmount ∈ m.tables.outputs ↔ ∃ tx ∈ allTransactions m.blocks, ∃ out ∈ tx.outputs,
      isKey out.target = true ∧ out.amount = deletedAmount := by
  have ht : Tight m.tables.outputs := (h.sound hU).recorded.compact.outputs
  have hlen := length_tableSlots (ledgered_of_built hU h) true deletedAmount
  have hb : deletedAmount ∈ m.tables.outputs ↔ 0 < (bucket m.tables.outputs
      deletedAmount).length := by
    rw [List.length_pos_iff, ← not_iff_not, not_not, ← Finmap.lookup_eq_none]
    exact ⟨fun hn => by rw [bucket, hn]; rfl,lookup_eq_none ht⟩
  rw [hb]
  change 0 < (tableSlots true m.tables deletedAmount).length ↔ _
  rw [hlen, created, List.countP_pos_iff]
  simp only [List.mem_flatMap, ofKind, beq_true, Bool.and_eq_true, beq_iff_eq]
  constructor
  · rintro ⟨out,⟨tx,htx,hout⟩,hkey,hz⟩
    exact ⟨tx,htx,out,hout,hkey,hz⟩
  · rintro ⟨tx,htx,out,hout,hkey,hz⟩
    exact ⟨out,⟨tx,htx,hout⟩,hkey,hz⟩

theorem nullImage_mem_iff (hU : TxInj env U) (h : Built env U P ck m) :
    nullImage ∈ m.tables.spentKeys ↔
      ∃ tx ∈ allTransactions m.blocks, nullImage ∈ keyImages tx.inputs := by
  have hldg := ledgered_of_built hU h
  have hsp : nullImage ∈ m.tables.spentKeys ↔ nullImage ∈ ledgerImages (ledgerOf m.blocks) := by
    rw [hldg.tables, applyLedger_spentKeys, Finset.mem_union, List.mem_toFinset]
    exact or_iff_right (Finset.notMem_empty _)
  rw [hsp, ← ledgerOf_transactions, ledgerImages, List.mem_flatMap]
  constructor
  · rintro ⟨x,hx,hn⟩
    exact ⟨x.2,List.mem_map_of_mem hx,hn⟩
  · rintro ⟨tx,htx,hn⟩
    obtain ⟨x,hx,rfl⟩ := List.mem_map.mp htx
    exact ⟨x,hx,hn⟩

/-- After any history of accepted and removed blocks, the tables are free of
their reserved keys exactly if no coinbase has a key output of nothing and no
transaction the image of zeros. -/
theorem reservedFree_iff (hU : Set.InjOn env.getObjectHash U) (h : History env U m) :
    ReservedFree m.tables ↔ ∀ e ∈ m.blocks, Unreserved e := by
  have hblt := h.built hU
  have hsto := stored_of_built hblt
  constructor
  · rintro ⟨ho,hims⟩ e he
    rw [deletedAmount_mem_iff hU hblt] at ho
    rw [nullImage_mem_iff hU hblt] at hims
    refine ⟨?_,?_⟩
    · intro out hout hkey hz
      obtain ⟨entry,hent,htx⟩ := (hsto e he).coinbase_mem
      exact ho ⟨_,mem_allTransactions.mpr ⟨e,he,entry,hent,htx⟩,out,hout,hkey,hz⟩
    · intro entry hent hn
      exact hims ⟨_,mem_allTransactions.mpr ⟨e,he,entry,List.mem_of_mem_drop hent,rfl⟩,hn⟩
  · intro hf
    refine ⟨?_,?_⟩
    · rw [deletedAmount_mem_iff hU hblt]
      rintro ⟨tx,htx,out,hout,hkey,hz⟩
      obtain ⟨e,he,entry,hent,rfl⟩ := mem_allTransactions.mp htx
      rcases (hsto e he).cases hent with hb | hlat
      · rw [hb] at hout
        exact (hf e he).coinbase out hout hkey hz
      · have htgt := ((checkTxSemantic_iff _ _).mp
          ((hsto e he).semantic entry hlat)).targets out hout
        unfold checkTargetValid at htgt
        cases hk : out.target with
        | key _ => simp_all [deletedAmount]
        | multisignature _ _ => simp_all [isKey]
    · rw [nullImage_mem_iff hU hblt]
      rintro ⟨tx,htx,hn⟩
      obtain ⟨e,he,entry,hent,rfl⟩ := mem_allTransactions.mp htx
      rcases (hsto e he).cases hent with hb | hlat
      · rw [hb, (hsto e he).bare] at hn
        cases hn
      · exact (hf e he).images entry hlat hn

theorem reservedFree_iff_sample : ReservedFree respentMain.tables := by
  apply (reservedFree_iff fullSpends_storable.injective respentMain_history).mpr
  have hf : ∀ e ∈ respentMain.blocks,
      (∀ out ∈ e.bl.baseTransaction.outputs, isKey out.target = true → out.amount ≠ deletedAmount) ∧
      ∀ entry ∈ e.transactions.drop 1, nullImage ∉ keyImages entry.tx.inputs := by
    decide +kernel
  exact fun e he => ⟨(hf e he).1,(hf e he).2⟩

theorem idleReward_signed : ([[]] : List (List Signature)).map List.length =
    ([.base 1] : List TransactionInput).map getSignaturesCount := rfl

def idleReward : Transaction where
  version := 1
  unlockTime := 2
  inputs := [.base 1]
  outputs := [⟨5297658301515, .key 1⟩, ⟨0, .key 1⟩]
  extra := [2]
  signatures := [[]]
  signed := idleReward_signed

def idleChain : MainChain :=
  left (pushBlock sampleEnv 111 (mine 2 1 111 idleReward []) [] sampleNode.main)

def idleTransactions : Set Transaction := {sampleCoinbase, idleReward}

theorem idleTransactions_injOn : Set.InjOn sampleEnv.getObjectHash idleTransactions := by
  rintro x (rfl | rfl) y (rfl | rfl) h
  · rfl
  · exact absurd h (by decide)
  · exact absurd h (by decide)
  · rfl

/-- The block is accepted, and the table of key outputs has an entry under the
reserved amount. -/
theorem deletedAmount_inserted : Set.InjOn sampleEnv.getObjectHash idleTransactions ∧
    History sampleEnv idleTransactions idleChain ∧ deletedAmount ∈ idleChain.tables.outputs := by
  have hoff : Offered sampleEnv idleTransactions (mine 2 1 111 idleReward []) [] :=
    ⟨.inr rfl,by simp,by simp,rfl,by decide⟩
  have hp : pushBlock sampleEnv 111 (mine 2 1 111 idleReward []) [] sampleNode.main =
      .ok (true, .added) idleChain := eq_ok_of_value (by decide +kernel)
  refine ⟨idleTransactions_injOn,.push (sampleNode_history (.inl rfl)) hoff hp,?_⟩
  decide +kernel

end Orbis.ChainReserved
