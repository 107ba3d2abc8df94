import Orbis.ChainRestore

/-!
# The tables as a function of the blocks

The transactions of a chain, in their order and with their positions, form
the ledger. The tables of a built chain are what the ledger gives when its
transactions are applied one after the other to empty tables, and each table
is described by the ledger alone: the spent key images, the consumed
multisignature outputs and the outputs of every amount.
-/

set_option autoImplicit false

namespace Orbis.ChainLedger

open FaultState VectorTable ChainTypes ChainSemantic ChainTables ChainUndo ChainBlock
open ChainStack ChainPush ChainSound ChainBuilt ChainHistory ChainNode ChainRun ChainRestore

abbrev Ledger := List (TransactionIndex × Transaction)

def numbered (height k : ℕ) (txs : List Transaction) : Ledger :=
  (txs.zipIdx k).map fun x => (position height x.2, x.1)

def ledgerOf (blocks : List BlockEntry) : Ledger :=
  blocks.zipIdx.flatMap fun x => numbered x.2 0 (x.1.transactions.map TransactionEntry.tx)

variable (env : Env)

def applyLedger (l : Ledger) (t : Tables) : Tables :=
  l.foldl (fun t x => applyTransaction env x.2 (env.getObjectHash x.2) x.1 t) t

def AdmitsLedger : Ledger → Tables → Prop
  | [], _ => True
  | x :: rest, t => Admissible t x.2 (env.getObjectHash x.2) ∧
    AdmitsLedger rest (applyTransaction env x.2 (env.getObjectHash x.2) x.1 t)

variable {env} {t : Tables} {l : Ledger} (idx : TransactionIndex)

theorem applyLedger_append (l r : Ledger) (t : Tables) :
    applyLedger env (l ++ r) t = applyLedger env r (applyLedger env l t) :=
  List.foldl_append

theorem admitsLedger_append (l r : Ledger) (t : Tables) : AdmitsLedger env (l ++ r) t ↔
      AdmitsLedger env l t ∧ AdmitsLedger env r (applyLedger env l t) := by
  induction l generalizing t with
  | nil => simp [AdmitsLedger, applyLedger]
  | cons _ _ ih =>
    simp only [List.cons_append, AdmitsLedger, ih, and_assoc]
    rfl

variable {ht k : ℕ} {txs : List Transaction} {m : MainChain} {tx : Transaction} {hash : Hash}

theorem enterAll_eq_applyLedger :
    enterAll env ht k txs t = applyLedger env (numbered ht k txs) t := by
  induction txs generalizing k t with
  | nil => rfl
  | cons _ _ ih => exact ih

theorem admissibleAll_iff :
    AdmissibleAll env ht k txs t ↔ AdmitsLedger env (numbered ht k txs) t := by
  induction txs generalizing k t with
  | nil => rfl
  | cons _ _ ih => exact and_congr_right fun _ => ih

theorem ledgerOf_concat {bs : List BlockEntry} {e : BlockEntry} : ledgerOf (bs ++ [e]) =
      ledgerOf bs ++ numbered bs.length 0 (e.transactions.map TransactionEntry.tx) := by
  rw [ledgerOf, List.zipIdx_append, List.flatMap_append]
  simp [ledgerOf]

theorem acceptedEntry_transactions (env : Env) (m : MainChain) (b : Block) (txs : List Transaction)
    (df : UInt64) (em : Int64) :
    (acceptedEntry env m b txs df em).transactions.map TransactionEntry.tx =
      b.baseTransaction :: txs := by
  have hen := entriesAll_tx env m.blocks.length 1 txs (entered env m b).tables
  simpa [acceptedEntry, finishEntry, fullEntry, addEntries, openEntry, startEntry, entryOf]
    using hen

structure Ledgered (env : Env) (m : MainChain) : Prop where
  tables : m.tables = applyLedger env (ledgerOf m.blocks) Tables.empty
  admits : AdmitsLedger env (ledgerOf m.blocks) Tables.empty
  count : ∀ e ∈ m.blocks, e.transactions.length ≤ 2 ^ 16

theorem ledgered_of_built {U : Set Transaction} {P : Block → Prop} {ck : UInt64} (hU : TxInj env U)
    (h : Built env U P ck m) : Ledgered env m := by
  induction h with
  | empty => exact ⟨rfl,trivial,by simp [MainChain.empty]⟩
  | @push m _ b txs df em lower _ _ offered acceptance ih =>
    have hadm := admissible_filled hU (lower.sound hU) offered acceptance.header
      acceptance.short acceptance.inputs
    have hent := acceptedEntry_transactions env m b txs df em
    have hldg : ledgerOf (accepted env m b txs df em).blocks =
        ledgerOf m.blocks ++ numbered m.blocks.length 0 (b.baseTransaction :: txs) := by
      rw [accepted_blocks, ledgerOf_concat, hent]
    refine ⟨?_,?_,?_⟩
    · rw [hldg, applyLedger_append, ← ih.tables, ← enterAll_eq_applyLedger]
      rfl
    · rw [hldg, admitsLedger_append, ← ih.tables, ← admissibleAll_iff]
      exact ⟨ih.admits,hadm⟩
    · intro e he
      rw [accepted_blocks, List.mem_append, List.mem_singleton] at he
      rcases he with hold | rfl
      · exact ih.count e hold
      · have hlen := congrArg List.length hent
        have hcnt := offered.count
        simp only [List.length_map, List.length_cons] at hlen
        omega

def ledgerImages (l : Ledger) : List KeyImage := l.flatMap fun x => keyImages x.2.inputs

def ledgerPlaces (l : Ledger) : List (UInt64 × ℕ) := l.flatMap fun x => places x.2.inputs

theorem applyLedger_spentKeys (l : Ledger) (t : Tables) :
    (applyLedger env l t).spentKeys = t.spentKeys ∪ (ledgerImages l).toFinset := by
  induction l generalizing t with
  | nil => simp [applyLedger, ledgerImages]
  | cons x _ ih =>
    have hs := ih (applyTransaction env x.2 (env.getObjectHash x.2) x.1 t)
    rw [applyTransaction_spentKeys, Finset.union_assoc] at hs
    rw [ledgerImages, List.flatMap_cons, List.toFinset_append]
    exact hs

theorem ledgerImages_nodup (h : AdmitsLedger env l t) :
    (ledgerImages l).Nodup ∧ ∀ im ∈ ledgerImages l, im ∉ t.spentKeys := by
  induction l generalizing t with
  | nil => simp [ledgerImages]
  | cons x rest ih =>
    obtain ⟨hnd,hfr⟩ := ih h.2
    have hr : ∀ im ∈ ledgerImages rest, im ∉ t.spentKeys ∧ im ∉ keyImages x.2.inputs := by
      intro im him
      have hnot := hfr im him
      rw [applyTransaction_spentKeys, Finset.mem_union, not_or, List.mem_toFinset] at hnot
      exact hnot
    rw [ledgerImages, List.flatMap_cons]
    refine ⟨List.nodup_append.mpr ⟨h.1.spendable.images,hnd,?_⟩,?_⟩
    · rintro im him o hoth rfl
      exact (hr im hoth).2 him
    · intro im him
      rcases List.mem_append.mp him with hfst | hlat
      · exact h.1.spendable.unspent im hfst
      · exact (hr im hlat).1

def UsedAt (t : Tables) (amount : UInt64) (i : ℕ) : Prop :=
  ∃ usage, (bucket t.multisignatureOutputs amount)[i]? = some usage ∧ usage.isUsed = true

def slots (wanted : TransactionOutputTarget → Bool) (index : TransactionIndex) (k : ℕ)
    (outs : List TransactionOutput) (amount : UInt64) : List (TransactionIndex × UInt16) :=
  (outs.zipIdx k).filterMap fun x =>
    if wanted x.1.target && x.1.amount == amount then some (index, UInt16.ofNat x.2) else none

def freshUsage (x : TransactionIndex × UInt16) : MultisignatureOutputUsage := ⟨x.1, x.2, false⟩

theorem pushOutput_buckets (k : ℕ) (out : TransactionOutput) (t : Tables) (amt : UInt64) :
    bucket (pushOutput idx (UInt16.ofNat k) out t).outputs amt =
      bucket t.outputs amt ++ slots isKey idx k [out] amt ∧
    bucket (pushOutput idx (UInt16.ofNat k) out t).multisignatureOutputs amt =
      bucket t.multisignatureOutputs amt ++
        (slots (fun tgt => !isKey tgt) idx k [out] amt).map freshUsage := by
  unfold pushOutput slots
  cases htgt : out.target with
  | key _ =>
    by_cases ha : amt = out.amount
    · subst ha
      simp [htgt, isKey]
    · simp [htgt, isKey, bucket_pushBack_of_ne ha, Ne.symm ha]
  | multisignature _ _ =>
    by_cases ha : amt = out.amount
    · subst ha
      simp [htgt, isKey, freshUsage]
    · simp [htgt, isKey, bucket_pushBack_of_ne ha, Ne.symm ha]

theorem slots_cons (wanted : TransactionOutputTarget → Bool) (ix : TransactionIndex) (k : ℕ)
    (out : TransactionOutput) (rest : List TransactionOutput) (amt : UInt64) :
    slots wanted ix k (out :: rest) amt =
      slots wanted ix k [out] amt ++ slots wanted ix (k + 1) rest amt := by
  simp only [slots, List.zipIdx_cons, List.zipIdx_nil, List.filterMap_cons, List.filterMap_nil]
  split <;> simp

theorem pushOutputs_buckets (k : ℕ) (outs : List TransactionOutput) (t : Tables) (amt : UInt64) :
    bucket (pushOutputs idx (UInt16.ofNat k) outs t).1.outputs amt =
      bucket t.outputs amt ++ slots isKey idx k outs amt ∧
    bucket (pushOutputs idx (UInt16.ofNat k) outs t).1.multisignatureOutputs amt =
      bucket t.multisignatureOutputs amt ++
        (slots (fun tgt => !isKey tgt) idx k outs amt).map freshUsage := by
  induction outs generalizing k t with
  | nil => simp [pushOutputs, slots]
  | cons out rest ih =>
    have hn : UInt16.ofNat k + 1 = UInt16.ofNat (k + 1) := by
      rw [UInt16.ofNat_add]
      rfl
    obtain ⟨hkey,hm⟩ := pushOutput_buckets idx k out t amt
    obtain ⟨hk,hmul⟩ := ih (k + 1) (pushOutput idx (UInt16.ofNat k) out t)
    simp only [pushOutputs, hn]
    constructor
    · rw [hk, hkey, slots_cons isKey idx k out rest, List.append_assoc]
    · rw [hmul, hm, slots_cons (fun tgt => !isKey tgt) idx k out rest,
        List.map_append, List.append_assoc]

theorem applyTransaction_buckets (env : Env) (tx : Transaction) (hash : Hash)
    (ix : TransactionIndex) (t : Tables) (amt : UInt64) :
    bucket (applyTransaction env tx hash ix t).outputs amt =
      bucket t.outputs amt ++ slots isKey ix 0 tx.outputs amt ∧
    bucket (applyTransaction env tx hash ix t).multisignatureOutputs amt =
      bucket (modifyAll t.multisignatureOutputs (places tx.inputs) (setUsed true)) amt ++
        (slots (fun tgt => !isKey tgt) ix 0 tx.outputs amt).map freshUsage :=
  pushOutputs_buckets ix 0 tx.outputs (consumeInputs tx.inputs (insertTransaction hash ix t)) amt

theorem applyLedger_outputs (l : Ledger) (t : Tables) (amt : UInt64) :
    bucket (applyLedger env l t).outputs amt =
      bucket t.outputs amt ++ l.flatMap fun x => slots isKey x.1 0 x.2.outputs amt := by
  induction l generalizing t with
  | nil => simp [applyLedger]
  | cons x _ ih =>
    have hs := ih (applyTransaction env x.2 (env.getObjectHash x.2) x.1 t)
    rw [(applyTransaction_buckets env x.2 _ x.1 t amt).1, List.append_assoc] at hs
    rw [List.flatMap_cons]
    exact hs

theorem usedAt_applyTransaction (hadm : Admissible t tx hash) (amt : UInt64) (i : ℕ) :
    UsedAt (applyTransaction env tx hash idx t) amt i ↔
      UsedAt t amt i ∨ (amt, i) ∈ places tx.inputs := by
  have hpls := places_nodup hadm.spendable.spends
  have hlen := length_bucket_modifyAll t.multisignatureOutputs (places tx.inputs) (setUsed true) amt
  unfold UsedAt
  rw [(applyTransaction_buckets env tx hash idx t amt).2]
  by_cases hi : i < (bucket t.multisignatureOutputs amt).length
  · rw [List.getElem?_append_left (by omega), getElem?_modifyAll _ _ hpls,
      List.getElem?_eq_getElem hi]
    by_cases hmem : (amt, i) ∈ places tx.inputs
    · simp [hmem, setUsed]
    · simp [hmem]
  · have hn : (bucket t.multisignatureOutputs amt)[i]? = none :=
      List.getElem?_eq_none (not_lt.mp hi)
    have hout : (amt, i) ∉ places tx.inputs := fun hmem => hi (hadm.spendable.inside _ hmem)
    rw [List.getElem?_append_right (by omega), hn]
    simp only [reduceCtorEq, false_and, exists_false, hout, or_self, iff_false, not_exists,
      List.getElem?_map, Option.map_eq_some_iff, not_and]
    rintro usage ⟨x,-,rfl⟩
    simp [freshUsage]

theorem usedAt_applyLedger (h : AdmitsLedger env l t) (amt : UInt64) (i : ℕ) :
    UsedAt (applyLedger env l t) amt i ↔ UsedAt t amt i ∨ (amt, i) ∈ ledgerPlaces l := by
  induction l generalizing t with
  | nil => simp [applyLedger, ledgerPlaces]
  | cons x _ ih =>
    have hs := ih h.2
    rw [usedAt_applyTransaction x.1 h.1, or_assoc, ← List.mem_append] at hs
    rw [ledgerPlaces, List.flatMap_cons]
    exact hs

theorem not_usedAt_of_place (hadm : Admissible t tx hash) {p : UInt64 × ℕ}
    (hp : p ∈ places tx.inputs) : ¬ UsedAt t p.1 p.2 := by
  rintro ⟨_,hus,hu⟩
  obtain ⟨spend,hspd,rfl⟩ := List.mem_map.mp hp
  obtain ⟨_,hfd,hf⟩ := hadm.spendable.unused spend hspd
  rw [hfd, Option.some.injEq] at hus
  rw [hus, hu] at hf
  cases hf

theorem ledgerPlaces_nodup (h : AdmitsLedger env l t) :
    (ledgerPlaces l).Nodup ∧ ∀ p ∈ ledgerPlaces l, ¬ UsedAt t p.1 p.2 := by
  induction l generalizing t with
  | nil => simp [ledgerPlaces]
  | cons x rest ih =>
    obtain ⟨hnd,hfr⟩ := ih h.2
    have hr : ∀ p ∈ ledgerPlaces rest, ¬ UsedAt t p.1 p.2 ∧ p ∉ places x.2.inputs := by
      intro p hp
      have hnot := hfr p hp
      rw [usedAt_applyTransaction x.1 h.1, not_or] at hnot
      exact hnot
    rw [ledgerPlaces, List.flatMap_cons]
    refine ⟨List.nodup_append.mpr ⟨places_nodup h.1.spendable.spends,hnd,?_⟩,?_⟩
    · rintro p hp o hoth rfl
      exact (hr p hoth).2 hp
    · intro p hp
      rcases List.mem_append.mp hp with hfst | hlat
      · exact not_usedAt_of_place h.1 hfst
      · exact (hr p hlat).1

theorem not_usedAt_empty (amt : UInt64) (i : ℕ) : ¬ UsedAt Tables.empty amt i := by
  rintro ⟨_,hus,-⟩
  simp [Tables.empty] at hus

theorem usedAt_iff (h : Ledgered env m) (amt : UInt64) (i : ℕ) :
    UsedAt m.tables amt i ↔ (amt, i) ∈ ledgerPlaces (ledgerOf m.blocks) := by
  rw [h.tables, usedAt_applyLedger h.admits]
  exact or_iff_right (not_usedAt_empty amt i)

/-- In every run whose blocks are within the size limit, reorganisations and
rollbacks included, no key image and no multisignature output is spent twice
by the main chain, and the tables hold exactly what it spends. -/
theorem chain_spends_once {U : Set Transaction} (hst : Storable env U)
    {clock : UInt64} {n : Node} (hrun : SizedRun env U clock n) :
    (ledgerImages (ledgerOf n.main.blocks)).Nodup ∧
    n.main.tables.spentKeys = (ledgerImages (ledgerOf n.main.blocks)).toFinset ∧
    (ledgerPlaces (ledgerOf n.main.blocks)).Nodup ∧ (∀ p ∈ ledgerPlaces (ledgerOf n.main.blocks),
      p.2 < (bucket n.main.tables.multisignatureOutputs p.1).length) ∧
    ∀ amount i usage, (bucket n.main.tables.multisignatureOutputs amount)[i]? = some usage →
      (usage.isUsed = true ↔ (amount, i) ∈ ledgerPlaces (ledgerOf n.main.blocks)) := by
  have hU := hst.injective
  have hldg := ledgered_of_built hU (good_of_sizedRun hU hrun).built
  refine ⟨(ledgerImages_nodup hldg.admits).1,?_,(ledgerPlaces_nodup hldg.admits).1,?_,?_⟩
  · rw [hldg.tables, applyLedger_spentKeys]
    exact Finset.empty_union _
  · rintro ⟨amount,i⟩ hp
    obtain ⟨usage,hus,-⟩ := (usedAt_iff hldg amount i).mpr hp
    exact (List.getElem?_eq_some_iff.mp hus).1
  · intro amount i usage hus
    rw [← usedAt_iff hldg]
    constructor
    · exact fun hu => ⟨usage,hus,hu⟩
    · rintro ⟨_,hoth,hu⟩
      rw [hus, Option.some.injEq] at hoth
      rwa [hoth]

theorem keySpend_signed : ([[⟨0, 0⟩]] : List (List Signature)).map List.length =
    ([.key 5297658301515 [0] 7] : List TransactionInput).map getSignaturesCount := rfl

def keySpend : Transaction where
  version := 1
  unlockTime := 0
  inputs := [.key 5297658301515 [0] 7]
  outputs := [⟨5297658301515, .key 1⟩]
  extra := [5]
  signatures := [[⟨0, 0⟩]]
  signed := keySpend_signed

def spendBlock : Block := mine 3 1 111 sampleReward [3]

def spentNode : Node := left (addNewBlock sampleEnv 111 1 spendBlock pooledSpend)

def keyPooled : Node := left (handleIncomingTransaction sampleEnv 111 keySpend true spentNode)

def keyBlock : Block := { blockOn spentNode 6 3 2 222 with transactionHashes := [5] }

def keySpent : Node := left (addNewBlock sampleEnv 222 1 keyBlock keyPooled)

def keySpends : Set Transaction :=
  {sampleCoinbase, sampleReward, fullSpend 3, keyBlock.baseTransaction, keySpend}

theorem keySpends_storable : Storable sampleEnv keySpends where
  injective := by
    rintro x (rfl | rfl | rfl | rfl | rfl) y (rfl | rfl | rfl | rfl | rfl) h
    all_goals first | rfl | exact absurd h (by decide)
  amounts := by
    rintro x (rfl | rfl | rfl | rfl | rfl)
    all_goals decide
  images := by
    rintro x (rfl | rfl | rfl | rfl | rfl)
    all_goals decide

theorem fits_of_transaction {U : Set Transaction} (hU : Set.InjOn env.getObjectHash U) {b : Block}
    (htx : tx ∈ U) (hb : b.transactionHashes = [env.getObjectHash tx])
    (hs : checkCumulativeBlockSize env (blockSize b [tx]) (getBlockHeight b) = true) :
    Fits env U b := by
  intro txs hknown hhash
  rw [hb, List.map_eq_singleton_iff] at hhash
  obtain ⟨o,rfl,heq⟩ := hhash
  rwa [hU (hknown o (by simp)) htx heq]

theorem spentNode_run {P : Block → Prop} {strict : Prop}
    (hP : ∀ b ∈ [sampleEnv.currency.genesisBlock, spendBlock], P b) :
    Run sampleEnv keySpends P strict 111 spentNode := by
  have hpooled : Run sampleEnv keySpends P strict 0 pooledSpend :=
    .transaction (sampleNode_run (hP _ (by simp))) UInt64.le_rfl UInt64.le_rfl
      (.inr (.inr (.inl rfl))) (eq_ok_of_value
        (show _ = some (true, ⟨false, false, false, true, false⟩) from by decide))
  exact .block hpooled (by decide) UInt64.le_rfl (hP _ (by simp))
    (eq_ok_of_value (show _ = some (true, .added) from by decide)) fun _ => rfl

theorem keySpends_sized :
    ∀ b ∈ [sampleEnv.currency.genesisBlock, spendBlock], Sized sampleEnv keySpends b := by
  simp only [List.forall_mem_cons]
  refine ⟨⟨⟨.inl rfl,by decide⟩,fits_of_no_transactions rfl (by decide)⟩,
    ⟨⟨.inr (.inl rfl),by decide⟩,?_⟩,by simp⟩
  exact fits_of_transaction keySpends_storable.injective (.inr (.inr (.inl rfl))) rfl
    (by decide)

theorem keySpent_sized : SizedRun sampleEnv keySpends 222 keySpent := by
  have hU := keySpends_storable.injective
  have hspent : SizedRun sampleEnv keySpends 111 spentNode := spentNode_run keySpends_sized
  have hring : SizedRun sampleEnv keySpends 111 keyPooled :=
    .transaction hspent UInt64.le_rfl UInt64.le_rfl (.inr (.inr (.inr (.inr rfl))))
      (eq_ok_of_value
        (show _ = some (true, ⟨false, false, false, true, false⟩) from by decide))
  have hkey : Sized sampleEnv keySpends keyBlock :=
    ⟨⟨.inr (.inr (.inr (.inl rfl))),by decide⟩,
      fits_of_transaction hU (.inr (.inr (.inr (.inr rfl)))) (by decide)
        (by decide)⟩
  exact .block hring (by decide) UInt64.le_rfl hkey
    (eq_ok_of_value (show _ = some (true, .added) from by decide)) False.elim

theorem chain_spends_once_sample : ledgerImages (ledgerOf keySpent.main.blocks) = [7] ∧
    keySpent.main.tables.spentKeys = {7} ∧
    ledgerPlaces (ledgerOf keySpent.main.blocks) = [(5297660827636, 0)] ∧
    ∀ amount i usage, (bucket keySpent.main.tables.multisignatureOutputs amount)[i]? = some usage →
      (usage.isUsed = true ↔ amount = 5297660827636 ∧ i = 0) := by
  have hims : ledgerImages (ledgerOf keySpent.main.blocks) = [7] := by decide
  have hpls : ledgerPlaces (ledgerOf keySpent.main.blocks) = [(5297660827636, 0)] := by
    decide
  obtain ⟨-,hkeys,-,-,hused⟩ := chain_spends_once keySpends_storable keySpent_sized
  refine ⟨hims,?_,hpls,?_⟩
  · rw [hkeys, hims]
    rfl
  · intro amount i usage h
    rw [hused amount i usage h, hpls, List.mem_singleton, Prod.mk.injEq]

/-- After a block was refused for its size, the genesis output that one of
its transactions wanted to spend counts as used, and no transaction of the
chain consumes it. -/
theorem refused_spend_remains : Storable sampleEnv wideSpends ∧
    Run sampleEnv wideSpends (Counted wideSpends) False 111 sampleRefused ∧
    ∃ usage, (bucket sampleRefused.main.tables.multisignatureOutputs 5297660827636)[0]? =
        some usage ∧ usage.isUsed = true ∧
      (5297660827636, 0) ∉ ledgerPlaces (ledgerOf sampleRefused.main.blocks) :=
  ⟨wideSpends_storable,sampleRefused_run,⟨⟨0, 0⟩, 0, true⟩,by decide +kernel,rfl, by decide +kernel⟩

end Orbis.ChainLedger
