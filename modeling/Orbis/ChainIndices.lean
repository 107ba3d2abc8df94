import Orbis.ChainPlaces
import Orbis.ChainCache

/-!
# The global indexes of outputs

Wallets name an output by its amount and its place in the table of that
amount. After any history of accepted and removed blocks both tables list the
outputs of the stored blocks in the order of the chain, each of them once, and
every transaction carries the places of its own outputs. The places are kept
with 32 bits, so they are the true ones as long as no amount has more than
`2 ^ 32` outputs of a kind.
-/

set_option autoImplicit false

namespace Orbis.ChainIndices

open FaultState VectorTable ChainTypes ChainCurrency ChainSemantic ChainTables ChainUndo ChainInputs
open ChainBlock ChainStack ChainPush ChainSound ChainBuilt ChainLedger ChainPlaces ChainCache
open ChainRun ChainRestore

variable {i j height hgt o : ℕ} {bs : List BlockEntry} {amount amt : UInt64}
variable {slot : TransactionIndex × UInt16} {entry en : TransactionEntry} {out : TransactionOutput}
variable {key : Bool} (wanted : TransactionOutputTarget → Bool) (index ix : TransactionIndex)
  (count cnt : ℕ) {t : Tables} {txs : List Transaction}

def Before (x y : TransactionIndex × UInt16) : Prop :=
  x.1.block < y.1.block ∨ x.1.block = y.1.block ∧
    (x.1.transaction < y.1.transaction ∨ x.1.transaction = y.1.transaction ∧ x.2 < y.2)

theorem not_before_self (x : TransactionIndex × UInt16) : ¬ Before x x := by
  rintro (h | ⟨-,h | ⟨-,h⟩⟩)
  · exact lt_irrefl _ h
  · exact UInt16.lt_irrefl _ h
  · exact UInt16.lt_irrefl _ h

def ofKind (key : Bool) (target : TransactionOutputTarget) : Bool := isKey target == key

def tableSlots (key : Bool) (t : Tables) (amount : UInt64) : List (TransactionIndex × UInt16) :=
  match key with
  | true => bucket t.outputs amount
  | false => (bucket t.multisignatureOutputs amount).map slotOf

theorem ofKind_true : ofKind true = isKey := by
  funext tgt
  cases tgt <;> rfl

theorem ofKind_false : ofKind false = isMultisignature := by
  funext tgt
  cases tgt <;> rfl

variable {l : Ledger} {α : Type} {outs : List TransactionOutput} {k : ℕ} {r : List Transaction}
  {e : BlockEntry} {U : Set Transaction}

theorem tableSlots_applyLedger {env : Env} : tableSlots key (applyLedger env l t) amt =
      tableSlots key t amt ++ ledgerSlots (ofKind key) l amt := by
  cases key with
  | true =>
    rw [ofKind_true]
    exact applyLedger_outputs l t amt
  | false =>
    rw [ofKind_false]
    exact applyLedger_slots env l t amt

theorem tableSlots_of_ledgered {env : Env} {m : MainChain} (h : Ledgered env m) (key : Bool)
    (amt : UInt64) :
    tableSlots key m.tables amt = ledgerSlots (ofKind key) (ledgerOf m.blocks) amt := by
  have hemp : tableSlots key Tables.empty amt = [] := by
    cases key <;> simp [tableSlots, Tables.empty]
  rw [h.tables, tableSlots_applyLedger, hemp, List.nil_append]

theorem zipIdx_increasing (l : List α) (k : ℕ) : (l.zipIdx k).Pairwise fun x y => x.2 < y.2 := by
  apply List.pairwise_map.mp
  rw [List.zipIdx_map_snd]
  exact List.pairwise_lt_range'

theorem ofNat_lt (hij : i < j) (hj : j < 2 ^ 16) : UInt16.ofNat i < UInt16.ofNat j := by
  rw [UInt16.lt_iff_toNat_lt, UInt16.toNat_ofNat_of_lt' (hij.trans hj),
    UInt16.toNat_ofNat_of_lt' hj]
  exact hij

theorem slots_increasing (hsh : outs.length < 2 ^ 16)
    (amt : UInt64) : (slots wanted ix 0 outs amt).Pairwise Before := by
  apply List.pairwise_filterMap.mpr
  apply (zipIdx_increasing outs 0).imp_of_mem
  intro x y hx hy hlt p hp q hq
  have hy' := List.snd_lt_of_mem_zipIdx hy
  split_ifs at hp hq
  cases hp
  cases hq
  exact .inr ⟨rfl,.inr ⟨rfl,ofNat_lt hlt (by omega)⟩⟩

def Earlier (x y : TransactionIndex) : Prop :=
  x.block < y.block ∨ x.block = y.block ∧ x.transaction < y.transaction

theorem numbered_increasing (ht : ℕ) (hcnt : txs.length ≤ 2 ^ 16) :
    (numbered ht 0 txs).Pairwise fun x y => Earlier x.1 y.1 := by
  apply List.pairwise_map.mpr
  apply (zipIdx_increasing txs 0).imp_of_mem
  intro x y hx hy hlt
  have hy' := List.snd_lt_of_mem_zipIdx hy
  exact .inr ⟨rfl,ofNat_lt hlt (by omega)⟩

theorem ledgerOf_increasing (hcnt : ∀ e ∈ bs, e.transactions.length ≤ 2 ^ 16) :
    (ledgerOf bs).Pairwise fun x y => Earlier x.1 y.1 := by
  apply List.pairwise_flatMap.mpr
  constructor
  · intro x hx
    apply numbered_increasing
    rw [List.length_map]
    exact hcnt x.1 (List.fst_mem_of_mem_zipIdx hx)
  · apply (zipIdx_increasing bs 0).imp
    intro x y hlt p hp q hq
    obtain ⟨_,-,hi⟩ := mem_numbered hp
    obtain ⟨_,-,hj⟩ := mem_numbered hq
    refine .inl ?_
    rw [hi, hj]
    exact hlt

variable {idx : TransactionIndex} {ht : ℕ}

theorem index_of_slot {wanted : TransactionOutputTarget → Bool}
    (h : slot ∈ slots wanted idx k outs amt) : slot.1 = idx := by
  obtain ⟨_,-,hs⟩ := List.mem_filterMap.mp h
  split_ifs at hs
  cases hs
  rfl

theorem ledgerSlots_increasing (hl : l.Pairwise fun x y => Earlier x.1 y.1)
    (hsh : ∀ x ∈ l, x.2.outputs.length < 2 ^ 16) (amt : UInt64) :
    (ledgerSlots wanted l amt).Pairwise Before := by
  apply List.pairwise_flatMap.mpr
  constructor
  · intro x hx
    exact slots_increasing wanted x.1 (hsh x hx) amt
  · apply hl.imp
    intro x y hear p hp q hq
    rw [← index_of_slot hp, ← index_of_slot hq] at hear
    rcases hear with hblk | ⟨hblk,ht⟩
    · exact .inl hblk
    · exact .inr ⟨hblk,.inl ht⟩

theorem slots_append (k : ℕ) (l r : List TransactionOutput) (amt : UInt64) :
    slots wanted ix k (l ++ r) amt =
      slots wanted ix k l amt ++ slots wanted ix (k + l.length) r amt := by
  rw [slots, List.zipIdx_append, List.filterMap_append]
  rfl

theorem ledgerSlots_append {r : Ledger} : ledgerSlots wanted (l ++ r) amt =
      ledgerSlots wanted l amt ++ ledgerSlots wanted r amt :=
  List.flatMap_append

theorem numbered_append {l : List Transaction} :
    numbered ht k (l ++ r) = numbered ht k l ++ numbered ht (k + l.length) r := by
  rw [numbered, List.zipIdx_append, List.map_append]
  rfl

theorem split_at {l : List α} {x : α} (h : l[i]? = some x) :
    l = l.take i ++ x :: l.drop (i + 1) ∧ (l.take i).length = i := by
  obtain ⟨hlt,rfl⟩ := List.getElem?_eq_some_iff.mp h
  constructor
  · rw [← List.drop_eq_getElem_cons hlt, List.take_append_drop]
  · rw [List.length_take]
    omega

theorem ledgerOf_split (h : bs[hgt]? = some e) : ∃ later, ledgerOf bs = ledgerOf (bs.take hgt) ++
      numbered hgt 0 (e.transactions.map TransactionEntry.tx) ++ later := by
  obtain ⟨hspl,hlen⟩ := split_at h
  have hzip : bs.zipIdx = (bs.take hgt).zipIdx ++
      (e, hgt) :: (bs.drop (hgt + 1)).zipIdx (hgt + 1) := by
    conv_lhs => rw [hspl, List.zipIdx_append, hlen, Nat.zero_add, List.zipIdx_cons]
  rw [ledgerOf, hzip, List.flatMap_append, List.flatMap_cons, ← List.append_assoc]
  exact ⟨_,rfl⟩

def ledgerBefore (blocks : List BlockEntry) (height : ℕ) (e : BlockEntry) (j : ℕ) : Ledger :=
  ledgerOf (blocks.take height) ++
    numbered height 0 ((e.transactions.map TransactionEntry.tx).take j)

theorem ledgerOf_at (he : bs[hgt]? = some e) (hent : e.transactions[j]? = some en) :
    ∃ later, ledgerOf bs = ledgerBefore bs hgt e j ++ (position hgt j, en.tx) :: later := by
  have htx : (e.transactions.map TransactionEntry.tx)[j]? = some en.tx := by
    rw [List.getElem?_map, hent]
    rfl
  obtain ⟨hspl,hlen⟩ := split_at htx
  obtain ⟨later,hldg⟩ := ledgerOf_split he
  rw [hspl, numbered_append, hlen, Nat.zero_add] at hldg
  refine ⟨numbered hgt (j + 1) ((e.transactions.map TransactionEntry.tx).drop (j + 1)) ++ later,?_⟩
  rw [hldg, ledgerBefore]
  simp [numbered, List.zipIdx_cons]

def rank (l : Ledger) (index : TransactionIndex) (outs : List TransactionOutput) (o : ℕ)
    (out : TransactionOutput) : ℕ :=
  (ledgerSlots (ofKind (isKey out.target)) l out.amount).length +
    (slots (ofKind (isKey out.target)) index 0 (outs.take o) out.amount).length

theorem getElem?_rank {later : Ledger} {tx : Transaction} (h : tx.outputs[o]? = some out) :
    (ledgerSlots (ofKind (isKey out.target)) (l ++ (idx, tx) :: later) out.amount)[
      rank l idx tx.outputs o out]? = some (idx, UInt16.ofNat o) := by
  obtain ⟨hspl,hlen⟩ := split_at h
  have hown : slots (ofKind (isKey out.target)) idx o [out] out.amount =
      [(idx, UInt16.ofNat o)] := by
    simp [slots, ofKind]
  have hs := slots_append (ofKind (isKey out.target)) idx 0 (tx.outputs.take o)
    (out :: tx.outputs.drop (o + 1)) out.amount
  rw [← hspl, hlen, Nat.zero_add, slots_cons, hown] at hs
  rw [ledgerSlots_append, rank, List.getElem?_append_right (Nat.le_add_right _ _),
    Nat.add_sub_cancel_left, ledgerSlots, List.flatMap_cons, hs, List.append_assoc,
    List.getElem?_append_right le_rfl, Nat.sub_self]
  rfl

section Stamp

theorem length_tableSlots_pushOutput :
    (tableSlots key (pushOutput ix (UInt16.ofNat k) out t) amt).length =
      (tableSlots key t amt).length + (slots (ofKind key) ix k [out] amt).length := by
  obtain ⟨hk,hmul⟩ := pushOutput_buckets ix k out t amt
  cases key with
  | true =>
    rw [ofKind_true]
    simp only [tableSlots, hk, List.length_append]
  | false =>
    rw [ofKind_false]
    simp only [tableSlots, hmul, List.length_append, List.length_map]
    rfl

theorem globalOutputIndex_eq : globalOutputIndex out t =
      UInt32.ofNat (tableSlots (isKey out.target) t out.amount).length := by
  unfold globalOutputIndex
  cases out.target with
  | key _ => rfl
  | multisignature _ _ => simp [tableSlots, isKey]

theorem pushOutputs_indexes (k : ℕ) (outs : List TransactionOutput) (t : Tables) (o : ℕ)
    (h : outs[o]? = some out) : (pushOutputs ix (UInt16.ofNat k) outs t).2[o]? =
      some (UInt32.ofNat ((tableSlots (isKey out.target) t out.amount).length +
        (slots (ofKind (isKey out.target)) ix k (outs.take o) out.amount).length)) := by
  induction outs generalizing k t o with
  | nil => cases h
  | cons first rest ih =>
    have hn : UInt16.ofNat k + 1 = UInt16.ofNat (k + 1) := by
      rw [UInt16.ofNat_add]
      rfl
    simp only [pushOutputs, hn]
    cases o with
    | zero =>
      rw [List.getElem?_cons_zero, Option.some.injEq] at h
      subst h
      rw [List.getElem?_cons_zero, globalOutputIndex_eq]
      simp [slots]
    | succ o =>
      rw [List.getElem?_cons_succ] at h ⊢
      rw [ih (k + 1) _ o h, length_tableSlots_pushOutput, List.take_succ_cons,
        slots_cons _ ix k first (rest.take o), List.length_append, Nat.add_assoc]

theorem length_tableSlots_consume {hash : Hash} {ins : List TransactionInput} :
    (tableSlots key (consumeInputs ins (insertTransaction hash idx t)) amt).length =
      (tableSlots key t amt).length := by
  cases key with
  | true => rfl
  | false =>
    simp only [tableSlots, List.length_map]
    exact length_bucket_modifyAll _ _ _ _

theorem entryOf_indexes (env : Env) (ht k : ℕ) (tx : Transaction) (t : Tables) (o : ℕ)
    (h : tx.outputs[o]? = some out) : (entryOf env ht k tx t).globalOutputIndexes[o]? =
      some (UInt32.ofNat ((tableSlots (isKey out.target) t out.amount).length +
        (slots (ofKind (isKey out.target)) (position ht k) 0 (tx.outputs.take o)
          out.amount).length)) := by
  have hixs := pushOutputs_indexes (position ht k) 0 tx.outputs (consumeInputs tx.inputs
    (insertTransaction (env.getObjectHash tx) (position ht k) t)) o h
  rw [length_tableSlots_consume] at hixs
  exact hixs

variable {env : Env} {m : MainChain}

theorem getElem?_entriesAll {j : ℕ} : (entriesAll env ht k txs t)[j]? = txs[j]?.map fun tx =>
      entryOf env ht (k + j) tx (enterAll env ht k (txs.take j) t) := by
  induction txs generalizing k j t with
  | nil => rfl
  | cons _ _ ih =>
    cases j with
    | zero => rfl
    | succ _ =>
      rw [entriesAll, List.getElem?_cons_succ, List.getElem?_cons_succ, ih, Nat.add_right_comm]
      rfl

theorem acceptedEntry_entries {b : Block} {df : UInt64} {em : Int64} :
    (acceptedEntry env m b txs df em).transactions =
      entriesAll env m.blocks.length 0 (b.baseTransaction :: txs) m.tables :=
  rfl

def Stamped (blocks : List BlockEntry) : Prop :=
  ∀ height e j entry o out, blocks[height]? = some e → e.transactions[j]? = some entry →
    entry.tx.outputs[o]? = some out →
      entry.globalOutputIndexes[o]? = some (UInt32.ofNat
        (rank (ledgerBefore blocks height e j) (position height j) entry.tx.outputs o out))

theorem stamped_accepted (hm : Ledgered env m) (hstm : Stamped m.blocks) (b : Block)
    (txs : List Transaction) (df : UInt64) (em : Int64) :
    Stamped (accepted env m b txs df em).blocks := by
  intro hgt e j en o out he hent hout
  rw [accepted_blocks] at he ⊢
  by_cases hold : hgt < m.blocks.length
  · rw [List.getElem?_append_left hold] at he
    have hini : ledgerBefore (m.blocks ++ [acceptedEntry env m b txs df em])
        hgt e j = ledgerBefore m.blocks hgt e j := by
      rw [ledgerBefore, List.take_append_of_le_length hold.le, ledgerBefore]
    rw [hini]
    exact hstm hgt e j en o out he hent hout
  · have hl : hgt = m.blocks.length := by
      have hlen := (List.getElem?_eq_some_iff.mp he).1
      rw [List.length_append, List.length_singleton] at hlen
      omega
    subst hl
    rw [List.getElem?_concat_length, Option.some.injEq] at he
    subst he
    have htx := acceptedEntry_transactions env m b txs df em
    rw [acceptedEntry_entries, getElem?_entriesAll, Option.map_eq_some_iff] at hent
    obtain ⟨tx,-,rfl⟩ := hent
    have ho : tx.outputs[o]? = some out := hout
    rw [Nat.zero_add, entryOf_indexes env _ _ _ _ o ho, enterAll_eq_applyLedger,
      tableSlots_applyLedger, tableSlots_of_ledgered hm, ← ledgerSlots_append]
    rw [ledgerBefore, htx, List.take_left]
    rfl

theorem stamped_of_built {P : Block → Prop} {ck : UInt64} (hU : TxInj env U)
    (h : Built env U P ck m) : Stamped m.blocks := by
  induction h with
  | empty =>
    intro hgt e j en o out he
    cases he
  | push lower _ _ _ _ ih =>
    exact stamped_accepted (ledgered_of_built hU lower) ih _ _ _ _

end Stamp

section Index

def Names (slot : TransactionIndex × UInt16) (height j o : ℕ) : Prop :=
  slot.1.block = height ∧ slot.1.transaction.toNat = j ∧ slot.2.toNat = o

structure Holds (m : MainChain) (key : Bool) (amount : UInt64) (height j o : ℕ)
    (entry : TransactionEntry) : Prop where
  stored : ∃ e, m.blocks[height]? = some e ∧ e.transactions[j]? = some entry
  output : ∃ out, entry.tx.outputs[o]? = some out ∧ isKey out.target = key ∧ out.amount = amount

structure Listed (m : MainChain) (key : Bool) (amount : UInt64) : Prop where
  increasing : (tableSlots key m.tables amount).Pairwise Before
  named : ∀ slot ∈ tableSlots key m.tables amount, ∃ height j o entry,
    Names slot height j o ∧ Holds m key amount height j o entry
  once : ∀ height j o entry, Holds m key amount height j o entry →
    ∃! place : ℕ, ∃ slot, (tableSlots key m.tables amount)[place]? = some slot ∧
      Names slot height j o

structure Indexed (m : MainChain) (key : Bool) (amount : UInt64) : Prop
    extends listed : Listed m key amount where
  places : ∀ height j o entry, Holds m key amount height j o entry → ∀ (place : ℕ) slot,
    (tableSlots key m.tables amount)[place]? = some slot → Names slot height j o →
      entry.globalOutputIndexes[o]?.map UInt32.toNat = some place

variable {env : Env} {m : MainChain}

theorem increasing_of_ledgered (h : Ledgered env m) (key : Bool) (amt : UInt64) :
    (tableSlots key m.tables amt).Pairwise Before := by
  rw [tableSlots_of_ledgered h]
  apply ledgerSlots_increasing _ (ledgerOf_increasing h.count)
  intro x hx
  exact short_of_admits h.admits hx

theorem unique_place (h : Ledgered env m) (hi : (tableSlots key m.tables amt)[i]? = some slot)
    (hj : (tableSlots key m.tables amt)[j]? = some slot) : i = j := by
  have hnd : (tableSlots key m.tables amt).Nodup := by
    apply (increasing_of_ledgered h key amt).imp
    rintro x y hbef rfl
    exact not_before_self x hbef
  apply (List.getElem?_inj (List.getElem?_eq_some_iff.mp hi).1 hnd).mp
  rw [hi, hj]

theorem slot_of_names (h : Ledgered env m) (hhol : Holds m key amt hgt j o en) :
    Names slot hgt j o ↔ slot = (position hgt j, UInt16.ofNat o) := by
  obtain ⟨⟨e,he,hent⟩,_,hout,-,-⟩ := hhol
  have hj : j < 2 ^ 16 := lt_of_lt_of_le (List.getElem?_eq_some_iff.mp hent).1
    (h.count e (List.mem_of_getElem? he))
  obtain ⟨_,hldg⟩ := ledgerOf_at he hent
  have hmem : (position hgt j, en.tx) ∈ ledgerOf m.blocks := by
    rw [hldg]
    exact List.mem_append_right _ List.mem_cons_self
  have ho : o < 2 ^ 16 :=
    (List.getElem?_eq_some_iff.mp hout).1.trans (short_of_admits h.admits hmem)
  constructor
  · rintro ⟨hblk,ht,hou⟩
    rcases slot with ⟨⟨_,_⟩,_⟩
    subst hblk ht hou
    simp [position]
  · rintro rfl
    exact ⟨rfl,position_toNat hj,UInt16.toNat_ofNat_of_lt' ho⟩

theorem place_of_holds (h : Ledgered env m) (hstm : Stamped m.blocks)
    (hhol : Holds m key amt hgt j o en) :
    ∃ place, (tableSlots key m.tables amt)[place]? = some (position hgt j, UInt16.ofNat o) ∧
      en.globalOutputIndexes[o]? = some (UInt32.ofNat place) := by
  obtain ⟨⟨e,he,hent⟩,out,hout,rfl,rfl⟩ := hhol
  obtain ⟨_,hldg⟩ := ledgerOf_at he hent
  refine ⟨_,?_,hstm hgt e j en o out he hent hout⟩
  rw [tableSlots_of_ledgered h, hldg]
  exact getElem?_rank hout

theorem listed_of_ledgered (h : Ledgered env m) (hstm : Stamped m.blocks) (key : Bool)
    (amt : UInt64) : Listed m key amt where
  increasing := increasing_of_ledgered h key amt
  named := by
    intro slot hs
    rw [tableSlots_of_ledgered h] at hs
    obtain ⟨-,en,out,hr,hout,hk,ham⟩ := located_of_ledgered h hs
    unfold transactionByIndex at hr
    cases he : m.blocks[slot.1.block]? with
    | none =>
      rw [he] at hr
      cases hr
    | some e =>
      simp only [he] at hr
      cases hent : e.transactions[slot.1.transaction.toNat]? with
      | none =>
        rw [hent] at hr
        cases hr
      | some _ =>
        simp only [hent] at hr
        cases hr
        exact ⟨slot.1.block,slot.1.transaction.toNat,slot.2.toNat,en,⟨rfl,rfl,rfl⟩,
          ⟨⟨e,he,hent⟩,out,hout,by simpa [ofKind] using hk,ham⟩⟩
  once := by
    intro hgt j o en hhol
    obtain ⟨place,hpl,-⟩ := place_of_holds h hstm hhol
    refine ⟨place,⟨_,hpl,(slot_of_names h hhol).mpr rfl⟩,?_⟩
    rintro ot ⟨slot,hs,hn⟩
    rw [(slot_of_names h hhol).mp hn] at hs
    exact unique_place h hs hpl

def allTransactions (blocks : List BlockEntry) : List Transaction :=
  blocks.flatMap fun e => e.transactions.map TransactionEntry.tx

theorem ledgerOf_transactions (bks : List BlockEntry) :
    (ledgerOf bks).map Prod.snd = allTransactions bks := by
  induction bks using List.reverseRecOn with
  | nil => rfl
  | append_singleton _ _ ih =>
    rw [ledgerOf_concat, List.map_append, ih, numbered_transactions, allTransactions,
      allTransactions, List.flatMap_append, List.flatMap_singleton]

theorem length_tableSlots (h : Ledgered env m) (key : Bool) (amt : UInt64) :
    (tableSlots key m.tables amt).length = created (ofKind key) (allTransactions m.blocks) amt := by
  rw [tableSlots_of_ledgered h, length_ledgerSlots, ledgerOf_transactions]

theorem created_le_of_indexed (hU : TxInj env U) (h : History env U m) (hixd : Indexed m key amt) :
    created (ofKind key) (allTransactions m.blocks) amt ≤ 2 ^ 32 := by
  rw [← length_tableSlots (ledgered_of_built hU (h.built hU))]
  by_contra hm
  -- the entry at place `2 ^ 32` cannot be carried by its transaction
  have hpl := List.getElem?_eq_getElem (not_le.mp hm)
  obtain ⟨hgt,j,o,en,hn,hhol⟩ := hixd.named _ (List.mem_of_getElem? hpl)
  have hix := hixd.places hgt j o en hhol _ _ hpl hn
  obtain ⟨ix,-,_⟩ := Option.map_eq_some_iff.mp hix
  exact absurd ix.toNat_lt (by omega)

/-- After any history of accepted and removed blocks the tables list the
outputs of the chain, and the transactions carry their places, exactly if the
places fit into the 32 bits in which they are kept. -/
theorem indexed_iff {U : Set Transaction} (hst : Storable env U)
    (h : History env U m) : (∀ key amount, Indexed m key amount) ↔
      ∀ key amount, created (ofKind key) (allTransactions m.blocks) amount ≤ 2 ^ 32 := by
  have hU := hst.injective
  have hblt := h.built hU
  have hldg := ledgered_of_built hU hblt
  have hstm := stamped_of_built hU hblt
  constructor
  · intro hixd key amount
    exact created_le_of_indexed hU h (hixd key amount)
  · intro hcnt key amount
    refine ⟨listed_of_ledgered hldg hstm key amount,?_⟩
    intro height j o entry hhol place slot hs hn
    obtain ⟨_,hpl,hix⟩ := place_of_holds hldg hstm hhol
    rw [(slot_of_names hldg hhol).mp hn] at hs
    have hsa := unique_place hldg hs hpl
    subst hsa
    have hlt : place < 2 ^ 32 := by
      have hlen := hcnt key amount
      rw [← length_tableSlots hldg] at hlen
      exact lt_of_lt_of_le (List.getElem?_eq_some_iff.mp hs).1 hlen
    rw [hix, Option.map_some, UInt32.toNat_ofNat_of_lt' hlt]

end Index

theorem indexed_iff_sample : respentMain.blocks.length = 2 ∧
    ∀ key amount, Indexed respentMain key amount := by
  refine ⟨by decide +kernel,(indexed_iff fullSpends_storable respentMain_history).mpr ?_⟩
  intro key amount
  apply List.countP_le_length.trans
  decide +kernel

section Tower

def towerCoinbase (height : ℕ) (reward : UInt64) : Transaction where
  version := 1
  unlockTime := UInt64.ofNat height + 60
  inputs := [.base height]
  outputs := ⟨reward, .multisignature [] 0⟩ :: List.replicate 256 ⟨0, .multisignature [] 0⟩
  extra := []
  signatures := [[]]
  signed := base_signed height

def towerGenesis : Block := mine 0 nullHash 0 (towerCoinbase 0 5297660827636) []

def towerEnv : Env where
  ops := sampleOps
  getObjectHash := fun tx => match tx.inputs with
    | [.base height] => height + 1
    | _ => 0
  getPrefixHash := fun _ => 0
  getBlockHash := fun b => getBlockHeight b + 1
  getPaymentId := fun _ => none
  checkProofOfWork := fun _ _ => true
  currency := Currency.configured 0 towerGenesis
  checkpoints := ⟨[], noCheckpoints_increasing⟩

def towerReward (m : MainChain) : UInt64 :=
  towerEnv.currency.baseReward (alreadyGenerated m.blocks)

def towerBlock (m : MainChain) : Block :=
  mine 0 m.blocks.length (UInt64.ofNat (m.blocks.length * 111))
    (towerCoinbase m.blocks.length (towerReward m)) []

def tower : ℕ → MainChain
  | 0 => left (pushBlock towerEnv 0 towerGenesis [] MainChain.empty)
  | count + 1 => accepted towerEnv (tower count) (towerBlock (tower count)) [] 1
      (towerReward (tower count)).toInt64

def towerTransactions : Set Transaction :=
  {tx | tx = towerGenesis.baseTransaction ∨
    ∃ count, tx = (towerBlock (tower count)).baseTransaction}

theorem tower_length : (tower cnt).blocks.length = cnt + 1 := by
  induction cnt with
  | zero => decide +kernel
  | succ _ ih =>
    rw [tower, accepted_blocks, List.length_append, ih]
    rfl

theorem tower_injOn : Set.InjOn towerEnv.getObjectHash towerTransactions := by
  have hh : ∀ cnt, towerEnv.getObjectHash (towerBlock (tower cnt)).baseTransaction = cnt + 2 := by
    intro cnt
    change (tower cnt).blocks.length + 1 = cnt + 2
    rw [tower_length]
  have hst : towerEnv.getObjectHash towerGenesis.baseTransaction = 1 := rfl
  rintro x (rfl | ⟨i,rfl⟩) y (rfl | ⟨j,rfl⟩) h
  · rfl
  · have hone : 1 = j + 2 := hst.symm.trans (h.trans (hh j))
    omega
  · have hone : i + 2 = 1 := (hh i).symm.trans (h.trans hst)
    omega
  · have hs : i + 2 = j + 2 := (hh i).symm.trans (h.trans (hh j))
    rw [show i = j by omega]

theorem tower_storable : Storable towerEnv towerTransactions where
  injective := tower_injOn
  amounts := by
    have hkey : ∀ ht reward, ∀ out ∈ (towerCoinbase ht reward).outputs,
        isKey out.target = false := by
      intro ht reward out hout
      rcases List.mem_cons.mp hout with rfl | hrest
      · rfl
      · rw [(List.mem_replicate.mp hrest).2]
        rfl
    rintro x (rfl | ⟨i,rfl⟩) out hout htrue
    all_goals
      rw [hkey _ _ out hout] at htrue
      cases htrue
  images := by
    rintro x (rfl | ⟨i,rfl⟩)
    all_goals exact List.not_mem_nil

structure Paced (m : MainChain) (height : ℕ) : Prop where
  index : m.blockIndex = (List.range' 0 height).map (· + 1)
  times : m.blocks.map (fun e => e.bl.timestamp) = paced 111 0 height
  works : m.blocks.map BlockEntry.cumulativeDifficulty = piled 0 height
  sizes : ∀ e ∈ m.blocks, e.blockCumulativeSize ≤ 10000

variable {m : MainChain}

theorem Paced.length (h : Paced m hgt) : m.blocks.length = hgt := by
  have hlen := congrArg List.length h.times
  rw [List.length_map, paced, List.length_map, List.length_range'] at hlen
  exact hlen

theorem drop_range (ht d : ℕ) : (List.range' 0 ht).drop d = List.range' d (ht - d) := by
  rw [List.drop_range', Nat.zero_add, Nat.mul_one]

theorem Paced.difficulty (h : Paced m hgt) (hht : hgt < 2 ^ 32) :
    getDifficultyForNextBlock towerEnv m.blocks = 1 := by
  unfold getDifficultyForNextBlock
  simp only [List.map_drop, h.times, h.works, h.length]
  generalize hd : (if hgt - towerEnv.currency.difficultyBlocksCount = 0 then 1
    else hgt - towerEnv.currency.difficultyBlocksCount) = d
  have hp : (paced 111 0 hgt).drop d = paced 111 d (hgt - d) := by
    rw [paced, ← List.map_drop, drop_range, paced]
  have hpi : (piled 0 hgt).drop d = piled d (hgt - d) := by
    rw [piled, ← List.map_drop, drop_range, piled]
  rw [hp, hpi]
  apply nextDifficulty_paced towerEnv.currency (by decide) (by decide)
  change 2 * ((d + (hgt - d) + 1) * 111) < 2 ^ 64
  split_ifs at hd <;> omega

theorem Paced.timestamp (h : Paced m hgt) (hht : hgt < 2 ^ 32) :
    checkBlockTimestampMain towerEnv (UInt64.ofNat (hgt * 111)) m.blocks (towerBlock m) =
      true := by
  have hnat : ∀ i ≤ hgt, (UInt64.ofNat (i * 111)).toNat = i * 111 := by
    intro i hi
    apply UInt64.toNat_ofNat_of_lt'
    change _ < 2 ^ 64
    omega
  have ht : (towerBlock m).timestamp = UInt64.ofNat (hgt * 111) := by
    change UInt64.ofNat (m.blocks.length * 111) = _
    rw [h.length]
  have hl := hnat hgt le_rfl
  have hfut : ¬ (towerBlock m).timestamp >
      UInt64.ofNat (hgt * 111) + towerEnv.currency.blockFutureTimeLimit := by
    rw [ht, gt_iff_lt, UInt64.lt_iff_toNat_lt, UInt64.toNat_add, hl]
    change ¬ (hgt * 111 + 7200) % 2 ^ 64 < hgt * 111
    omega
  have hmed : medianValue ((m.blocks.drop (m.blocks.length -
      towerEnv.currency.timestampCheckWindow)).map fun e => e.bl.timestamp) ≤
        (towerBlock m).timestamp := by
    apply medianValue_le
    · rw [ht, hl]
      omega
    · intro x hx
      rw [List.map_drop, h.times] at hx
      obtain ⟨i,hi,rfl⟩ := List.mem_map.mp (List.mem_of_mem_drop hx)
      have hi' := (List.mem_range'_1.mp hi).2
      rw [ht, UInt64.le_iff_toNat_le, hl]
      change (UInt64.ofNat (i * 111)).toNat ≤ _
      rw [hnat i (by omega)]
      omega
  unfold checkBlockTimestampMain checkBlockTimestamp
  rw [if_neg hfut]
  split_ifs with hsh
  · rfl
  · rw [Bool.not_eq_true', decide_eq_false_iff_not, UInt64.not_lt]
    exact hmed

theorem sum_zeros (money : UInt64) (cnt : ℕ) :
    (List.replicate cnt (0 : UInt64)).foldl (· + ·) money = money := by
  induction cnt with
  | zero => rfl
  | succ _ ih =>
    rw [List.replicate_succ, List.foldl_cons, UInt64.add_zero]
    exact ih

theorem towerCoinbase_amounts (ht : ℕ) (reward : UInt64) :
    (towerCoinbase ht reward).outputs.map TransactionOutput.amount =
      reward :: List.replicate 256 0 := by
  change reward :: (List.replicate 256 _).map _ = _
  rw [List.map_replicate]

theorem towerCoinbase_length (ht : ℕ) (reward : UInt64) :
    (towerCoinbase ht reward).outputs.length = 257 := by
  change (List.replicate 256 _).length + 1 = _
  rw [List.length_replicate]

theorem towerCoinbase_size (ht : ℕ) (reward : UInt64) :
    (getObjectBinarySize (towerCoinbase ht reward)).toNat ≤ 10000 := by
  have hht := varintSize_le 10 ht
  have hu := varintSize_le 10 (UInt64.ofNat ht + 60).toNat
  have hrw := varintSize_le 10 reward.toNat
  have hs : getObjectBinarySize (towerCoinbase ht reward) =
      UInt64.ofNat (1033 + varint ht + varint (UInt64.ofNat ht + 60).toNat +
        varint reward.toNat) := by
    have ho : ((towerCoinbase ht reward).outputs.map outputBinarySize).sum =
        varint reward.toNat + 3 + 256 * 4 := by
      change outputBinarySize ⟨reward, .multisignature [] 0⟩ + ((List.replicate 256
        (⟨0, .multisignature [] 0⟩ : TransactionOutput)).map outputBinarySize).sum = _
      rw [List.map_replicate, List.sum_replicate]
      rfl
    unfold getObjectBinarySize
    rw [ho, towerCoinbase_length]
    apply congrArg UInt64.ofNat
    change 1 + varint (UInt64.ofNat ht + 60).toNat + 1 + (1 + varint ht + 0) + 2 +
      (varint reward.toNat + 3 + 256 * 4) + 1 + 0 + 64 * 0 = _
    omega
  rw [hs, UInt64.toNat_ofNat_of_lt']
  · unfold varint
    omega
  · change _ < 2 ^ 64
    unfold varint
    omega

theorem Paced.header (h : Paced m hgt) (hpos : 0 < hgt) (hht : hgt < 2 ^ 32) :
    HeaderOk towerEnv (UInt64.ofNat (hgt * 111)) m (towerBlock m) 1 where
  fresh := by
    intro hmem
    rw [h.index] at hmem
    obtain ⟨i,hi,heq⟩ := List.mem_map.mp hmem
    have hht : i + 1 = m.blocks.length + 1 := heq
    have hi' := (List.mem_range'_1.mp hi).2
    rw [h.length] at hht
    omega
  previous := by
    have hne : m.blocks ≠ [] := by
      rintro hnil
      have := h.length
      rw [hnil, List.length_nil] at this
      omega
    obtain ⟨_,rfl⟩ := Nat.exists_eq_succ_of_ne_zero hpos.ne'
    change m.blocks.length = _
    rw [MainChain.getTailId, if_neg hne, h.index, h.length, List.range'_concat, List.map_append]
    simp
  timestamp := h.timestamp hht
  difficulty_eq := (h.difficulty hht).symm
  difficulty_ne := by decide
  work := rfl
  miner := by
    have ho : checkOutsOverflow (towerBlock m).baseTransaction.toTransactionPrefix = true := by
      change checkAmountsOverflow 0 ((towerCoinbase _ _).outputs.map TransactionOutput.amount) = _
      rw [towerCoinbase_amounts, checkAmountsOverflow, UInt64.add_zero, UInt64.zero_add, if_neg]
      · exact checkAmountsOverflow_zeros
      · exact UInt64.not_lt_zero
    change (m.blocks.length == m.blocks.length && (UInt64.ofNat m.blocks.length + 60 ==
      UInt64.ofNat m.blocks.length + 60) && checkOutsOverflow _) = true
    rw [ho, beq_self_eq_true, beq_self_eq_true]
    rfl

theorem Paced.acceptance (h : Paced m hgt) (hpos : 0 < hgt) (hht : hgt < 2 ^ 32) :
    Acceptance towerEnv (UInt64.ofNat (hgt * 111)) m (towerBlock m) [] 1
      (towerReward m).toInt64 where
  header := h.header hpos hht
  short := by
    change (towerCoinbase _ _).outputs.length < _
    rw [towerCoinbase_length]
    decide
  inputs := rfl
  size := by
    have hsm := towerCoinbase_size m.blocks.length (towerReward m)
    have hl : (towerEnv.currency.maxBlockCumulativeSize m.blocks.length).toNat ≥ 20480 := by
      change (20480 + (UInt64.ofNat m.blocks.length * 102400) / 284108 : UInt64).toNat ≥ 20480
      rw [h.length, UInt64.toNat_add, UInt64.toNat_div]
      have hdiv := Nat.div_le_self (UInt64.ofNat hgt * 102400).toNat (UInt64.toNat 284108)
      have hlt : (UInt64.ofNat hgt * 102400).toNat < 2 ^ 63 := by
        rw [UInt64.toNat_mul, UInt64.toNat_ofNat_of_lt' (show hgt < 2 ^ 64 by omega)]
        change hgt * 102400 % 2 ^ 64 < 2 ^ 63
        rw [Nat.mod_eq_of_lt (by omega)]
        omega
      change (20480 + _) % 2 ^ 64 ≥ 20480
      rw [Nat.mod_eq_of_lt (by omega)]
      exact Nat.le_add_right _ _
    unfold checkCumulativeBlockSize
    rw [Bool.not_eq_true', decide_eq_false_iff_not, gt_iff_lt, UInt64.not_lt,
      UInt64.le_iff_toNat_le]
    exact hsm.trans (by omega)
  reward := by
    have hsm := towerCoinbase_size m.blocks.length (towerReward m)
    have hp : getOutputAmount (towerBlock m).baseTransaction.toTransactionPrefix =
        towerReward m := by
      change ((towerCoinbase _ _).outputs.map TransactionOutput.amount).foldl (· + ·) 0 = _
      rw [towerCoinbase_amounts, List.foldl_cons, UInt64.zero_add, sum_zeros]
    have hmed : medianValue (getLastNBlocksSizes m.blocks
        towerEnv.currency.rewardBlocksWindow) ≤ 10000 := by
      apply medianValue_le (by decide)
      intro x hx
      obtain ⟨e,he,rfl⟩ := List.mem_map.mp hx
      exact h.sizes e (List.mem_of_mem_drop he)
    have hs : blockSize (towerBlock m) [] ≤ 10000 := UInt64.le_iff_toNat_le.mpr hsm
    have hrw := getBlockReward_granted towerEnv.currency (alreadyGenerated m.blocks) hmed
      hs (by decide)
    exact validateMinerTransaction_paid hrw hp

theorem Paced.next (h : Paced m hgt) (hpos : 0 < hgt) (hht : hgt < 2 ^ 32) :
    Paced (accepted towerEnv m (towerBlock m) [] 1 (towerReward m).toInt64) (hgt + 1) where
  index := by
    rw [accepted_blockIndex (h.header hpos hht).fresh, h.index, List.range'_concat, List.map_append]
    change _ ++ [m.blocks.length + 1] = _
    rw [h.length]
    simp
  times := by
    rw [accepted_blocks, List.map_append, h.times, paced_succ, Nat.zero_add]
    change _ ++ [UInt64.ofNat (m.blocks.length * 111)] = _
    rw [h.length]
    rfl
  works := by
    have hl : m.blocks.getLast?.map BlockEntry.cumulativeDifficulty = some (UInt64.ofNat hgt) := by
      obtain ⟨_,rfl⟩ := Nat.exists_eq_succ_of_ne_zero hpos.ne'
      rw [← List.getLast?_map, h.works, Nat.succ_eq_add_one, piled_succ, Nat.zero_add,
        List.getLast?_concat]
    obtain ⟨_,hget,hw⟩ := Option.map_eq_some_iff.mp hl
    rw [accepted_blocks, List.map_append, h.works, piled_succ, Nat.zero_add, UInt64.ofNat_add,
      ← hw, UInt64.add_comm]
    simp [acceptedEntry, finishEntry, hget]
  sizes := by
    intro e he
    rw [accepted_blocks] at he
    rcases List.mem_append.mp he with hold | hnew
    · exact h.sizes e hold
    · rw [List.mem_singleton.mp hnew]
      exact UInt64.le_iff_toNat_le.mpr (towerCoinbase_size m.blocks.length (towerReward m))

theorem tower_paced (hcnt : cnt < 2 ^ 32) : Paced (tower cnt) (cnt + 1) := by
  induction cnt with
  | zero => constructor <;> decide +kernel
  | succ _ ih => exact (ih (by omega)).next (by omega) (by omega)

theorem tower_history (hcnt : cnt < 2 ^ 32) : History towerEnv towerTransactions (tower cnt) := by
  induction cnt with
  | zero =>
    exact .genesis ⟨.inl rfl,by simp,by simp,rfl,by decide⟩
      (eq_ok_of_value (show _ = some (true, .added) from by decide +kernel))
  | succ cnt ih =>
    have hlw := ih (by omega)
    have hoff : Offered towerEnv towerTransactions (towerBlock (tower cnt)) [] :=
      ⟨.inr ⟨cnt,rfl⟩,by simp,by simp,rfl,by decide⟩
    have hacc := (tower_paced cnt (by omega)).acceptance (by omega) (by omega)
    have hsd := (hlw.built tower_injOn).sound tower_injOn
    exact .push hlw hoff (pushBlock_accepted tower_injOn hsd hoff hacc.header
      hacc.short hacc.inputs hacc.size hacc.reward)

theorem created_append {l : List Transaction} : created wanted (l ++ r) amt =
      created wanted l amt + created wanted r amt := by
  simp [created]

theorem tower_created :
    256 * cnt ≤ created (ofKind false) (allTransactions (tower cnt).blocks) 0 := by
  induction cnt with
  | zero => exact Nat.zero_le _
  | succ cnt ih =>
    have hcb : 256 ≤ created (ofKind false) [(towerBlock (tower cnt)).baseTransaction] 0 := by
      change 256 ≤ List.countP _ (((⟨_, .multisignature [] 0⟩ : TransactionOutput) ::
        List.replicate 256 ⟨0, .multisignature [] 0⟩) ++ [])
      rw [List.append_nil, List.countP_cons, List.countP_replicate]
      exact Nat.le_add_right _ _
    rw [tower, accepted_blocks]
    unfold allTransactions at ih ⊢
    rw [List.flatMap_append, created_append, List.flatMap_singleton, acceptedEntry_transactions]
    omega

/-- With the configured currency, a chain whose coinbases have multisignature
outputs of nothing besides their reward grows until the table of that amount
has more places than 32 bits can name. -/
theorem tower_misplaced : Storable towerEnv towerTransactions ∧
    History towerEnv towerTransactions (tower (2 ^ 24 + 1)) ∧
    ¬ ∀ key amount, Indexed (tower (2 ^ 24 + 1)) key amount := by
  have hhis := tower_history (2 ^ 24 + 1) (by decide)
  refine ⟨tower_storable,hhis,?_⟩
  intro hixd
  have hcrt := tower_created (2 ^ 24 + 1)
  have hpls := created_le_of_indexed tower_injOn hhis (hixd false 0)
  omega

end Tower

end Orbis.ChainIndices
