import Orbis.ChainLedger
import Orbis.ChainKeys

/-!
# Where the input checks read

The output tables name positions, and the input checks look these up in the
stored blocks. In the tables of a chain every position leads to an output of
the right kind and amount. While a block is being added the tables also name
positions of the block itself, which is not stored yet; a block whose inputs
leave its own outputs alone is checked without reading outside the store.
-/

set_option autoImplicit false

namespace Orbis.ChainPlaces

open FaultState VectorTable ChainTypes ChainSemantic ChainTables ChainUndo ChainInputs ChainBlock
open ChainStack ChainPush ChainSound ChainBuilt ChainNode ChainRun ChainRestore
open ChainLedger ChainKeys

variable {env : Env}

variable {wanted : TransactionOutputTarget → Bool} {amount amt : UInt64} {txs : List Transaction}
variable {t : Tables} {m : MainChain} {slot : TransactionIndex × UInt16}

variable {idx : TransactionIndex} {outs : List TransactionOutput} {ht k : ℕ}
  {x : TransactionIndex × Transaction} {U : Set Transaction} {b : Block}

theorem mem_slots {x : TransactionIndex × UInt16} (hsh : outs.length ≤ 2 ^ 16)
    (h : x ∈ slots wanted idx 0 outs amt) :
    x.1 = idx ∧ ∃ out, outs[x.2.toNat]? = some out ∧ wanted out.target = true ∧
      out.amount = amt := by
  obtain ⟨⟨out,j⟩,hmem,hs⟩ := List.mem_filterMap.mp h
  have hout := List.mk_mem_zipIdx_iff_getElem?.mp hmem
  have hj : (UInt16.ofNat j).toNat = j :=
    UInt16.toNat_ofNat_of_lt' (lt_of_lt_of_le (List.getElem?_eq_some_iff.mp hout).1 hsh)
  split_ifs at hs with hc
  cases hs
  simp only [Bool.and_eq_true, beq_iff_eq] at hc
  exact ⟨rfl,out,by rw [hj]; exact hout,hc⟩

theorem mem_numbered
    (h : x ∈ numbered ht 0 txs) : ∃ j, txs[j]? = some x.2 ∧ x.1 = position ht j := by
  obtain ⟨⟨_,j⟩,hmem,rfl⟩ := List.mem_map.mp h
  exact ⟨j,List.mk_mem_zipIdx_iff_getElem?.mp hmem,rfl⟩

theorem short_of_admits {l : Ledger} (h : AdmitsLedger env l t)
    (hx : x ∈ l) : x.2.outputs.length < 2 ^ 16 := by
  induction l generalizing t with
  | nil => cases hx
  | cons _ _ ih =>
    rcases List.mem_cons.mp hx with rfl | hr
    · exact h.1.short
    · exact ih h.2 hr

structure Located (blocks : List BlockEntry) (wanted : TransactionOutputTarget → Bool)
    (amount : UInt64) (slot : TransactionIndex × UInt16) : Prop where
  inside : slot.1.block < blocks.length
  found : ∃ entry out, transactionByIndex blocks slot.1 = .ok entry ∧
    entry.tx.outputs[slot.2.toNat]? = some out ∧ wanted out.target = true ∧ out.amount = amount

def ledgerSlots (wanted : TransactionOutputTarget → Bool) (l : Ledger) (amount : UInt64) :
    List (TransactionIndex × UInt16) :=
  l.flatMap fun x => slots wanted x.1 0 x.2.outputs amount

theorem located_of_ledgered (h : Ledgered env m)
    (hs : slot ∈ ledgerSlots wanted (ledgerOf m.blocks) amt) :
    Located m.blocks wanted amt slot := by
  obtain ⟨_,hx,hmem⟩ := List.mem_flatMap.mp hs
  obtain ⟨hix,out,hout,hk⟩ := mem_slots (short_of_admits h.admits hx).le hmem
  obtain ⟨⟨e,ht⟩,he,hn⟩ := List.mem_flatMap.mp hx
  have hblk := List.mk_mem_zipIdx_iff_getElem?.mp he
  obtain ⟨j,htx,hp⟩ := mem_numbered hn
  rw [List.getElem?_map, Option.map_eq_some_iff] at htx
  obtain ⟨en,hent,hsa⟩ := htx
  have hj : (position ht j).transaction.toNat = j := position_toNat
    (lt_of_lt_of_le (List.getElem?_eq_some_iff.mp hent).1 (h.count e (List.mem_of_getElem? hblk)))
  have hr : transactionByIndex m.blocks (position ht j) = .ok en := by
    unfold transactionByIndex
    rw [show (position ht j).block = ht from rfl, hblk, hj]
    simp only [hent]
  rw [← hsa] at hout
  refine ⟨?_,en,out,?_,hout,hk⟩
  · rw [hix, hp]
    exact (List.getElem?_eq_some_iff.mp hblk).1
  · rw [hix, hp]
    exact hr

def slotOf (usage : MultisignatureOutputUsage) : TransactionIndex × UInt16 :=
  (usage.transactionIndex, usage.outputIndex)

def isMultisignature (target : TransactionOutputTarget) : Bool := !isKey target

theorem applyLedger_slots (env : Env) (l : Ledger) (t : Tables) (amt : UInt64) :
    (bucket (applyLedger env l t).multisignatureOutputs amt).map slotOf =
      (bucket t.multisignatureOutputs amt).map slotOf ++ ledgerSlots isMultisignature l amt := by
  induction l generalizing t with
  | nil => simp [applyLedger, ledgerSlots]
  | cons x _ ih =>
    have hk : ∀ usage, slotOf (setUsed true usage) = slotOf usage := fun _ => rfl
    have hfr : slotOf ∘ freshUsage = id := rfl
    have hs := ih (applyTransaction env x.2 (env.getObjectHash x.2) x.1 t)
    rw [(applyTransaction_buckets env x.2 _ x.1 t amt).2, List.map_append, List.map_map,
      hfr, List.map_id, map_bucket_modifyAll hk, List.append_assoc] at hs
    exact hs

theorem located_output (h : Ledgered env m) (hs : slot ∈ bucket m.tables.outputs amt) :
    Located m.blocks isKey amt slot := by
  rw [h.tables, applyLedger_outputs] at hs
  exact located_of_ledgered h hs

theorem located_multisignature (h : Ledgered env m) {usage : MultisignatureOutputUsage}
    (hus : usage ∈ bucket m.tables.multisignatureOutputs amt) :
    Located m.blocks isMultisignature amt (slotOf usage) := by
  have hs := List.mem_map_of_mem (f := slotOf) hus
  rw [h.tables, applyLedger_slots] at hs
  exact located_of_ledgered h hs

def created (wanted : TransactionOutputTarget → Bool) (txs : List Transaction)
    (amount : UInt64) : ℕ :=
  (txs.flatMap fun tx => tx.outputs).countP fun out =>
    wanted out.target && out.amount == amount

theorem length_slots : (slots wanted idx k outs amt).length =
      outs.countP fun out => wanted out.target && out.amount == amt := by
  induction outs generalizing k with
  | nil => rfl
  | cons out _ ih =>
    rw [slots_cons, List.length_append, ih, List.countP_cons, Nat.add_comm]
    congr 1
    cases hw : wanted out.target && out.amount == amt <;>
      simp only [slots, List.zipIdx_singleton, List.filterMap_cons, List.filterMap_nil, hw] <;>
      rfl

theorem length_ledgerSlots (wanted : TransactionOutputTarget → Bool) (l : Ledger) (amt : UInt64)
    : (ledgerSlots wanted l amt).length = created wanted (l.map Prod.snd) amt := by
  induction l with
  | nil => rfl
  | cons _ _ ih =>
    simp only [ledgerSlots, created] at ih ⊢
    rw [List.flatMap_cons, List.length_append, length_slots, ih, List.map_cons, List.flatMap_cons,
      List.countP_append]

theorem numbered_transactions : (numbered ht k txs).map Prod.snd = txs := by
  rw [numbered, List.map_map]
  exact List.zipIdx_map_fst k txs

def stage (env : Env) (m : MainChain) (b : Block) (done : List Transaction) : Tables :=
  enterAll env m.blocks.length 0 (b.baseTransaction :: done) m.tables

def Outside (old new i : ℕ) : Prop := i < old ∨ old + new ≤ i

/-- No input of the transaction refers to an output that the coinbase of the
block or one of the transactions `done` before it creates. -/
structure Foreign (m : MainChain) (b : Block) (done : List Transaction) (tx : Transaction) :
    Prop where
  keys : ∀ amount indexes image, .key amount indexes image ∈ tx.inputs →
    ∀ i ∈ relativeOutputOffsetsToAbsolute indexes,
      Outside (bucket m.tables.outputs amount).length
        (created isKey (b.baseTransaction :: done) amount) i.toNat
  multisignatures : ∀ amount count i, .multisignature amount count i ∈ tx.inputs →
    Outside (bucket m.tables.multisignatureOutputs amount).length
      (created isMultisignature (b.baseTransaction :: done) amount) i.toNat

/-- Every position that the input check of the transaction reads from the
tables leads to an output of the stored blocks. -/
structure Readable (blocks : List BlockEntry) (t : Tables) (tx : Transaction) : Prop where
  keys : ∀ amount indexes image, .key amount indexes image ∈ tx.inputs →
    ∀ i ∈ relativeOutputOffsetsToAbsolute indexes, ∀ slot,
      (bucket t.outputs amount)[i.toNat]? = some slot → Located blocks isKey amount slot
  multisignatures : ∀ amount count i, .multisignature amount count i ∈ tx.inputs →
    ∀ usage, (bucket t.multisignatureOutputs amount)[i.toNat]? = some usage →
      Located blocks isMultisignature amount (slotOf usage)

theorem block_of_own (h : slot ∈ ledgerSlots wanted (numbered ht 0 txs) amt)
    : slot.1.block = ht := by
  obtain ⟨_,hx,hsl⟩ := List.mem_flatMap.mp h
  obtain ⟨_,-,hp⟩ := mem_numbered hx
  obtain ⟨_,-,hs⟩ := List.mem_filterMap.mp hsl
  split_ifs at hs
  cases hs
  exact congrArg TransactionIndex.block hp

theorem located_iff_outside {old : List (TransactionIndex × UInt16)} (own : List Transaction)
    (i : ℕ) (hold : ∀ slot ∈ old, Located m.blocks wanted amt slot) :
    (∀ slot, (old ++ ledgerSlots wanted (numbered m.blocks.length 0 own) amt)[i]? = some slot →
      Located m.blocks wanted amt slot) ↔ Outside old.length (created wanted own amt) i := by
  have hcrt := length_ledgerSlots wanted (numbered m.blocks.length 0 own) amt
  rw [numbered_transactions] at hcrt
  rw [← hcrt]
  constructor
  · intro h
    by_contra hisd
    obtain ⟨hlw,_⟩ := not_or.mp hisd
    rw [not_lt] at hlw
    have hs := List.getElem?_eq_getElem
      (show i - old.length < (ledgerSlots wanted (numbered m.blocks.length 0 own) amt).length by
        omega)
    have hl := h _ ((List.getElem?_append_right hlw).trans hs)
    have hown := block_of_own (List.mem_of_getElem? hs)
    exact absurd hl.inside (by omega)
  · intro h slot hs
    have hlen := (List.getElem?_eq_some_iff.mp hs).1
    rw [List.length_append] at hlen
    have hi : i < old.length := by
      rcases h with hlow | hh
      · exact hlow
      · omega
    rw [List.getElem?_append_left hi] at hs
    exact hold slot (List.mem_of_getElem? hs)

theorem readable_iff_foreign (hm : Ledgered env m) (b : Block) (done : List Transaction)
    (tx : Transaction) : Readable m.blocks (stage env m b done) tx ↔ Foreign m b done tx := by
  have hs : stage env m b done =
      applyLedger env (numbered m.blocks.length 0 (b.baseTransaction :: done)) m.tables :=
    enterAll_eq_applyLedger
  have hk (amt : UInt64) (i : ℕ) : (∀ slot, (bucket (stage env m b done).outputs amt)[i]? =
      some slot → Located m.blocks isKey amt slot) ↔
      Outside (bucket m.tables.outputs amt).length
        (created isKey (b.baseTransaction :: done) amt) i := by
    rw [hs, applyLedger_outputs]
    exact located_iff_outside _ i fun slot => located_output hm
  have hmul (amt : UInt64) (i : ℕ) :
      (∀ usage, (bucket (stage env m b done).multisignatureOutputs amt)[i]? = some usage →
        Located m.blocks isMultisignature amt (slotOf usage)) ↔
      Outside (bucket m.tables.multisignatureOutputs amt).length
        (created isMultisignature (b.baseTransaction :: done) amt) i := by
    have hold : ∀ slot ∈ (bucket m.tables.multisignatureOutputs amt).map slotOf,
        Located m.blocks isMultisignature amt slot := by
      intro slot hsl
      obtain ⟨usage,hus,rfl⟩ := List.mem_map.mp hsl
      exact located_multisignature hm hus
    have hslots := applyLedger_slots env
      (numbered m.blocks.length 0 (b.baseTransaction :: done)) m.tables amt
    have hiff := located_iff_outside (b.baseTransaction :: done) i hold
    rw [← hslots, ← hs, List.length_map] at hiff
    rw [← hiff]
    simp only [List.getElem?_map, Option.map_eq_some_iff, forall_exists_index, and_imp,
      forall_apply_eq_imp_iff₂]
  constructor
  · intro h
    exact ⟨fun amt idxs im hin i hi => (hk amt i.toNat).mp (h.keys amt idxs im hin i hi),
      fun amt cnt i hin => (hmul amt i.toNat).mp (h.multisignatures amt cnt i hin)⟩
  · intro h
    exact ⟨fun amt idxs im hin i hi => (hk amt i.toNat).mpr (h.keys amt idxs im hin i hi),
      fun amt cnt i hin => (hmul amt i.toNat).mpr (h.multisignatures amt cnt i hin)⟩

section Returning

variable {now : UInt64} {bs : List BlockEntry} {tx : Transaction}

def Abort (fault : Fault) : Prop := fault = .aborted

theorem checkTransactionInputs_located (h : Readable bs t tx) (hrings : ShortRings tx) :
    Yields Abort (fun _ => True) (checkTransactionInputs env now bs t tx) := by
  apply checkTransactionInputs_yields
  · intro amt idxs im hin i hi slot hs
    obtain ⟨e,out,hent,-⟩ := (h.keys amt idxs im hin i hi slot hs).found
    rw [hent]
    exact yields_ok (.inl rfl)
  · intro amt cnt i hin usage hus
    obtain ⟨e,out,hent,hout,hk,-⟩ := (h.multisignatures amt cnt i hin usage hus).found
    simp only [slotOf] at hent
    rw [hent]
    refine yields_ok ⟨.inl rfl,.inr ?_⟩
    cases htgt : out.target with
    | key _ =>
      rw [htgt] at hk
      cases hk
    | multisignature keys required => exact ⟨out,keys,required,hout,htgt⟩
  · exact .inr hrings

theorem checkTransactionInputs_returns (hk : BlocksKeyed env bs) (h : Readable bs t tx)
    (hrings : ShortRings tx) :
    ∃ res, checkTransactionInputs env now bs t tx = .ok res := by
  cases hchk : checkTransactionInputs env now bs t tx with
  | ok res => exact ⟨res,rfl⟩
  | error fault =>
    have ha := (checkTransactionInputs_located h hrings).2 fault hchk
    exact absurd ha ((checkTransactionInputs_survives hk t hrings).2 fault hchk).1

theorem keyed_of_built {P : Block → Prop} {ck : UInt64} (hP : ∀ b, P b → Keyed env b)
    (h : Built env U P ck m) : BlocksKeyed env m.blocks := by
  refine h.entries ?_
  intro m now b txs df em allowed offered acceptance
  refine ⟨hP b allowed,?_⟩
  intro e hent
  have hmem := List.mem_map_of_mem (f := TransactionEntry.tx) hent
  rw [acceptedEntry_transactions] at hmem
  rcases List.mem_cons.mp hmem with hb | htx
  · rw [hb]
    exact hP b allowed
  · exact txKeyed_of_semantic (offered.semantic _ htx)

theorem stage_next {done : List Transaction} : stage env m b (done ++ [tx]) =
      enter env m.blocks.length (1 + done.length) tx (stage env m b done) := by
  rw [stage, ← List.cons_append, enterAll_append, enterAll_singleton, List.length_cons,
    Nat.zero_add, Nat.add_comm]
  rfl

theorem checkBlockInputs_returns (hk : BlocksKeyed env m.blocks)
    (hsh : ∀ tx ∈ txs, tx.outputs.length < 2 ^ 16) (hrings : ∀ tx ∈ txs, ShortRings tx)
    (hr : ∀ done tx rest, txs = done ++ tx :: rest → Readable m.blocks (stage env m b done) tx) :
    ∃ valid, checkBlockInputs env now m b txs = .ok valid := by
  have hre : ∀ rest done, txs = done ++ rest → ∃ valid,
      checkAll env now m.blocks (1 + done.length) rest (stage env m b done) = .ok valid := by
    intro rest
    induction rest with
    | nil => exact fun done _ => ⟨true,rfl⟩
    | cons tx rest ih =>
      intro done hd
      obtain ⟨⟨valid,used⟩,hchk⟩ : ∃ res,
          checkTransactionInputs env now m.blocks (stage env m b done) tx = .ok res :=
        checkTransactionInputs_returns hk (hr done tx rest hd) (hrings tx (by rw [hd]; simp))
      obtain ⟨later,hlat⟩ := ih (done ++ [tx]) (by rw [hd, List.append_assoc]; rfl)
      rw [stage_next, List.length_append, List.length_singleton, ← Nat.add_assoc] at hlat
      have hl : ¬ 2 ^ 16 ≤ tx.outputs.length := not_le.mpr (hsh tx (by rw [hd]; simp))
      cases valid with
      | false =>
        refine ⟨false,?_⟩
        rw [checkAll, hchk]
        rfl
      | true =>
        refine ⟨later,?_⟩
        rw [checkAll, hchk]
        exact (if_neg hl).trans hlat
  exact hre txs [] rfl

end Returning

/-- In every run whose blocks are within the size limit and pay to keys that
decode, and for every block whose transactions can be counted: the positions
that its inputs name are inside the stored blocks exactly if no input refers
to an output of the block itself. Then `pushBlock` returns, if no ring is
longer than the cache of blocks and no multisignature amount is paid for the
first time. -/
theorem foreign_block_returns {U : Set Transaction} (hst : Storable env U)
    {clock : UInt64} {n : Node}
    (hrun : Run env U (fun b => Sized env U b ∧ Keyed env b) False clock n) (now : UInt64)
    {b : Block} {txs : List Transaction} (hoffered : Offered env U b txs)
    (hshort : ∀ tx ∈ b.baseTransaction :: txs, tx.outputs.length < 2 ^ 16)
    (hrings : ∀ tx ∈ txs, ShortRings tx) (hlast : LastingAll n.main b txs) :
    ((∀ done tx rest, txs = done ++ tx :: rest →
        Readable n.main.blocks (stage env n.main b done) tx) ↔
      ∀ done tx rest, txs = done ++ tx :: rest → Foreign n.main b done tx) ∧
    ((∀ done tx rest, txs = done ++ tx :: rest → Foreign n.main b done tx) →
      ∃ result m', pushBlock env now b txs n.main = .ok result m') := by
  have hU := hst.injective
  have hg := Run.good hU (fun b hb => hb.1.1) (fun _ b hb => hb.1.2) hrun
  have hldg := ledgered_of_built hU hg.built
  have hiff : (∀ done tx rest, txs = done ++ tx :: rest →
        Readable n.main.blocks (stage env n.main b done) tx) ↔
      ∀ done tx rest, txs = done ++ tx :: rest → Foreign n.main b done tx :=
    forall₃_congr fun done tx rest => imp_congr_right fun _ => readable_iff_foreign hldg b done tx
  refine ⟨hiff,fun hfgn => ?_⟩
  have hk := keyed_of_built (fun b hb => hb.2) hg.built
  obtain ⟨valid,hvd⟩ : ∃ valid, checkBlockInputs env now n.main b txs = .ok valid :=
    checkBlockInputs_returns hk (fun tx htx => hshort tx (List.mem_cons_of_mem _ htx)) hrings
      (hiff.mpr hfgn)
  rcases pushBlock_cases now hU (hg.built.sound hU) hoffered with
    ⟨_,hc,-⟩ | ⟨_,_,-,-,hl | hflt | hnew⟩ | ⟨-,hc⟩ | ⟨_,_,-,hc⟩
  · exact ⟨_,_,hc⟩
  · exact absurd hl (not_le.mpr (hshort _ (by simp)))
  · rw [hvd] at hflt
    cases hflt
  · exact absurd hlast hnew.2
  · exact ⟨_,_,hc⟩
  · exact ⟨_,_,hc⟩

theorem keyBlock_offered : Offered sampleEnv keySpends keyBlock [keySpend] where
  base := .inr (.inr (.inr (.inl rfl)))
  known := by
    intro tx htx
    rw [List.mem_singleton.mp htx]
    exact .inr (.inr (.inr (.inr rfl)))
  semantic := by
    intro tx htx
    rw [List.mem_singleton.mp htx]
    decide +kernel
  hashes := by decide +kernel
  count := by decide

theorem foreign_block_returns_sample :
    ∃ result m', pushBlock sampleEnv 222 keyBlock [keySpend] spentNode.main = .ok result m' := by
  have hkeyed : ∀ b ∈ [sampleEnv.currency.genesisBlock, spendBlock], Keyed sampleEnv b := by
    unfold Keyed TxKeyed
    decide +kernel
  have hrun : Run sampleEnv keySpends (fun b => Sized sampleEnv keySpends b ∧ Keyed sampleEnv b)
      False 111 spentNode := spentNode_run fun b hb => ⟨keySpends_sized b hb,hkeyed b hb⟩
  refine (foreign_block_returns keySpends_storable hrun 222 keyBlock_offered (by decide +kernel)
    ?_ (by decide +kernel)).2 ?_
  · intro tx htx
    rw [List.mem_singleton.mp htx]
    exact shortRings_of_inputs (by decide)
  · intro done tx rest hspl
    cases done with
    | nil =>
      cases hspl
      refine ⟨?_,?_⟩
      · intro amount indexes image hin
        cases List.mem_singleton.mp hin
        change ∀ i ∈ [(0 : UInt32)], _
        rw [List.forall_mem_singleton, Outside]
        decide +kernel
      · intro amount count i hin
        cases List.mem_singleton.mp hin
    | cons _ _ => simp at hspl

/-- The block with the coinbase `mint 2 1 5297658301515 (.key 1)` and a
transaction that has the output of this coinbase in its ring: the position
is that of the block itself, and the look-up throws. -/
theorem own_output_throws :
    Run sampleEnv {sampleCoinbase} (fun b => Sized sampleEnv {sampleCoinbase} b ∧
      Keyed sampleEnv b) False 0 sampleNode ∧
    checkTxSemantic sampleOps sampleRing.toTransactionPrefix = true ∧
    (bucket (stage sampleEnv sampleNode.main
      (mine 2 1 111 (mint 2 1 5297658301515 (.key 1)) [3]) []).outputs 5297658301515)[0]? =
        some (⟨1, 0⟩, 0) ∧ sampleNode.main.blocks.length = 1 ∧
    ∃ m', pushBlock sampleEnv 111 (mine 2 1 111 (mint 2 1 5297658301515 (.key 1)) [3]) [sampleRing]
      sampleNode.main = .error .outOfRange m' :=
  ⟨sampleNode_run ⟨⟨⟨rfl,by decide⟩,fits_of_no_transactions rfl (by decide +kernel)⟩,
      by unfold Keyed TxKeyed; decide +kernel⟩,by decide +kernel,by decide +kernel,by decide +kernel,
    _,eq_error_of_fault (by decide +kernel)⟩

end Orbis.ChainPlaces
