import Orbis.CounterLoop
import Orbis.ChainIndices

/-!
# The 16-bit counters

Outputs of a transaction and transactions of a block are counted with 16 bits
when a block is added and when the tables and indexes are rebuilt. The loops
are written out here with their counters. They end, and the positions they
store are the true ones, exactly for blocks whose counts stay below the range
of the counter. No check before the first of these loops looks at the counts:
a coinbase with `2 ^ 16` outputs passes all of them, and the block is never
finished.
-/

set_option autoImplicit false

namespace Orbis.ChainCounters

open FaultState CounterLoop ChainTypes ChainSemantic ChainTables ChainBlock ChainStack
open ChainPush ChainSound ChainLedger ChainRun ChainCache ChainIndices

variable {outs : List TransactionOutput} {block blk : BlockEntry} (index idx : TransactionIndex)

section Loops

variable (env : Env)

/-- The body of the loop over the outputs in `pushTransaction`. -/
def pushBody (index : TransactionIndex) (outs : List TransactionOutput) (o : ℕ)
    (s : Tables × List UInt32) : Except Fault (Tables × List UInt32) :=
  match outs[o]? with
  | none => .error .undefined
  | some out =>
    .ok (pushOutput index (UInt16.ofNat o) out s.1, s.2.set o (globalOutputIndex out s.1))

def pushLoop (index : TransactionIndex) (outs : List TransactionOutput) (fuel : ℕ) (t : Tables) :
    Option (Except Fault (Tables × List UInt32)) :=
  forLoop (2 ^ 16) outs.length (pushBody index outs) fuel 0 (t, List.replicate outs.length 0)

/-- The body of the loop over the outputs in `rebuildCache`. -/
def scanBody (index : TransactionIndex) (outs : List TransactionOutput) (o : ℕ) (t : Tables) :
    Except Fault Tables :=
  match outs[o]? with
  | none => .error .undefined
  | some out => .ok (pushOutput index (UInt16.ofNat o) out t)

def scanLoop (index : TransactionIndex) (outs : List TransactionOutput) (fuel : ℕ) (t : Tables) :
    Option (Except Fault Tables) :=
  forLoop (2 ^ 16) outs.length (scanBody index outs) fuel 0 t

def outcome {σ α : Type} : EStateM.Result Fault σ α → Except Fault σ
  | .ok _ s => .ok s
  | .error e _ => .error e

/-- The body of the loop over the transactions in `rebuildCache`. -/
def rebuildBody (b : ℕ) (block : BlockEntry) (k : ℕ) (t : Tables) : Except Fault Tables :=
  match block.transactions[k]? with
  | none => .error .undefined
  | some entry => outcome (scanTransaction env entry.tx ⟨b, UInt16.ofNat k⟩ t)

def rebuildLoop (b : ℕ) (block : BlockEntry) (fuel : ℕ) (t : Tables) :
    Option (Except Fault Tables) :=
  forLoop (2 ^ 16) block.transactions.length (rebuildBody env b block) fuel 0 t

/-- The body of the loop over the transactions in `loadBlockchainIndices`. -/
def paymentBody (block : BlockEntry) (k : ℕ) (t : Tables) : Except Fault Tables :=
  match block.transactions[k]? with
  | none => .error .undefined
  | some entry => .ok (addPaymentId env entry.tx t)

def paymentLoop (block : BlockEntry) (fuel : ℕ) (t : Tables) : Option (Except Fault Tables) :=
  forLoop (2 ^ 16) block.transactions.length (paymentBody env block) fuel 0 t

variable {env}

theorem drop_of_getElem? {α : Type} {l : List α} {k : ℕ} {x : α} (h : l[k]? = some x) :
    l.drop k = x :: l.drop (k + 1) := by
  obtain ⟨hlt,rfl⟩ := List.getElem?_eq_some_iff.mp h
  exact List.drop_eq_getElem_cons hlt

theorem exists_of_lt {α : Type} {l : List α} {k n : ℕ} (h : k + (n + 1) = l.length) :
    ∃ x, l[k]? = some x :=
  ⟨_,List.getElem?_eq_getElem (by omega)⟩

theorem ofNat_succ (k : ℕ) : UInt16.ofNat k + 1 = UInt16.ofNat (k + 1) := by
  rw [UInt16.ofNat_add]
  rfl

theorem visit_pushBody (outs : List TransactionOutput) (n k : ℕ) (hk : k + n = outs.length)
    (t : Tables) (done : List UInt32) (hd : done.length = k) :
    visit (pushBody idx outs) k n (t, done ++ List.replicate n 0) =
      .ok ((pushOutputs idx (UInt16.ofNat k) (outs.drop k) t).1,
        done ++ (pushOutputs idx (UInt16.ofNat k) (outs.drop k) t).2) := by
  induction n generalizing k t done with
  | zero =>
    rw [List.drop_eq_nil_of_le (by omega)]
    rfl
  | succ n ih =>
    obtain ⟨out,hout⟩ := exists_of_lt hk
    have hset : (done ++ List.replicate (n + 1) 0).set k (globalOutputIndex out t) =
        (done ++ [globalOutputIndex out t]) ++ List.replicate n 0 := by
      rw [← hd, List.set_append_right _ _ le_rfl, Nat.sub_self, List.replicate_succ,
        List.set_cons_zero, List.append_assoc, List.singleton_append]
    rw [visit_succ, drop_of_getElem? hout]
    simp only [pushBody, hout, pushOutputs, ofNat_succ, hset]
    rw [Except.bind, ih (k + 1) (by omega) _ _ (by simp [hd])]
    simp

theorem visit_scanBody (outs : List TransactionOutput) (n k : ℕ) (hk : k + n = outs.length)
    (t : Tables) : visit (scanBody idx outs) k n t =
      .ok (pushOutputs idx (UInt16.ofNat k) (outs.drop k) t).1 := by
  induction n generalizing k t with
  | zero =>
    rw [List.drop_eq_nil_of_le (by omega)]
    rfl
  | succ _ ih =>
    obtain ⟨_,hout⟩ := exists_of_lt hk
    rw [visit_succ, drop_of_getElem? hout]
    simp only [scanBody, hout, pushOutputs, ofNat_succ]
    exact ih (k + 1) (by omega) _

theorem visit_rebuildBody (b : ℕ) (blk : BlockEntry) (n k : ℕ)
    (hk : k + n = blk.transactions.length) (t : Tables) : visit (rebuildBody env b blk) k n t =
      outcome (scanTransactions env b k (blk.transactions.drop k) t) := by
  induction n generalizing k t with
  | zero =>
    rw [List.drop_eq_nil_of_le (by omega)]
    rfl
  | succ _ ih =>
    obtain ⟨e,hent⟩ := exists_of_lt hk
    rw [visit_succ, drop_of_getElem? hent]
    simp only [rebuildBody, hent, scanTransactions]
    cases hs : scanTransaction env e.tx (position b k) t with
    | ok _ _ =>
      rw [bind_of_ok hs, ← ih (k + 1) (by omega)]
      rw [show (⟨b, UInt16.ofNat k⟩ : TransactionIndex) = position b k from rfl, hs]
      rfl
    | error _ _ =>
      rw [bind_of_error hs]
      rw [show (⟨b, UInt16.ofNat k⟩ : TransactionIndex) = position b k from rfl, hs]
      rfl

theorem visit_paymentBody (blk : BlockEntry) (n k : ℕ) (hk : k + n = blk.transactions.length)
    (t : Tables) : visit (paymentBody env blk) k n t =
      .ok ((blk.transactions.drop k).foldl (fun t e => addPaymentId env e.tx t) t) := by
  induction n generalizing k t with
  | zero =>
    rw [List.drop_eq_nil_of_le (by omega)]
    rfl
  | succ _ ih =>
    obtain ⟨e,hent⟩ := exists_of_lt hk
    rw [visit_succ, drop_of_getElem? hent]
    simp only [paymentBody, hent, List.foldl_cons]
    exact ih (k + 1) (by omega) _

theorem pushLoop_short (h : outs.length < 2 ^ 16) (t : Tables) :
    pushLoop idx outs (outs.length + 1) t = some (.ok (pushOutputs idx 0 outs t)) := by
  rw [pushLoop, forLoop_short h outs.length 0 (Nat.zero_add _)]
  exact congrArg some (visit_pushBody idx outs outs.length 0 (Nat.zero_add _) t [] rfl)

theorem scanLoop_short (h : outs.length < 2 ^ 16) (t : Tables) :
    scanLoop idx outs (outs.length + 1) t = some (.ok (pushOutputs idx 0 outs t).1) := by
  rw [scanLoop, forLoop_short h outs.length 0 (Nat.zero_add _)]
  exact congrArg some (visit_scanBody idx outs outs.length 0 (Nat.zero_add _) t)

theorem rebuildLoop_short (b : ℕ) (h : blk.transactions.length < 2 ^ 16) (t : Tables) :
    rebuildLoop env b blk (blk.transactions.length + 1) t =
      some (outcome (scanTransactions env b 0 blk.transactions t)) := by
  rw [rebuildLoop, forLoop_short h blk.transactions.length 0 (Nat.zero_add _)]
  exact congrArg some (visit_rebuildBody b blk blk.transactions.length 0 (Nat.zero_add _) t)

theorem paymentLoop_short (h : blk.transactions.length < 2 ^ 16) (t : Tables) :
    paymentLoop env blk (blk.transactions.length + 1) t =
      some (.ok (blk.transactions.foldl (fun t e => addPaymentId env e.tx t) t)) := by
  rw [paymentLoop, forLoop_short h blk.transactions.length 0 (Nat.zero_add _)]
  exact congrArg some (visit_paymentBody blk blk.transactions.length 0 (Nat.zero_add _) t)

theorem pushLoop_endless (h : 2 ^ 16 ≤ outs.length) (fuel : ℕ) (t : Tables) :
    pushLoop idx outs fuel t = none := by
  apply forLoop_endless h _ fuel 0 (by decide)
  intro o s ho
  simp [pushBody, List.getElem?_eq_getElem ho]

theorem paymentLoop_endless (h : 2 ^ 16 ≤ blk.transactions.length) (fuel : ℕ) (t : Tables)
    : paymentLoop env blk fuel t = none := by
  apply forLoop_endless h _ fuel 0 (by decide)
  intro k s hk
  simp [paymentBody, List.getElem?_eq_getElem hk]

end Loops

def truePlaces (key : Bool) (outs : List TransactionOutput) (amount : UInt64) : List ℕ :=
  outs.zipIdx.filterMap fun x =>
    if ofKind key x.1.target && x.1.amount == amount then some x.2 else none

structure CountersTrue (env : Env) (height : ℕ) (b : Block) (txs : List Transaction) :
    Prop where
  pushes : ∀ tx ∈ b.baseTransaction :: txs, ∀ index t,
    ∃ fuel result, pushLoop index tx.outputs fuel t = some result
  scans : ∀ tx ∈ b.baseTransaction :: txs, ∀ index t,
    ∃ fuel result, scanLoop index tx.outputs fuel t = some result
  rebuilds : ∀ block : BlockEntry,
    block.transactions.map TransactionEntry.tx = b.baseTransaction :: txs →
      ∀ t, ∃ fuel result, rebuildLoop env height block fuel t = some result
  payments : ∀ block : BlockEntry,
    block.transactions.map TransactionEntry.tx = b.baseTransaction :: txs →
      ∀ t, ∃ fuel result, paymentLoop env block fuel t = some result
  transactions : ∀ k ≤ txs.length, (nextTransaction^[k] ⟨height, 0⟩).transaction.toNat = k
  outputs : ∀ tx ∈ b.baseTransaction :: txs, ∀ index t fuel result,
    pushLoop index tx.outputs fuel t = some (.ok result) → ∀ key amount,
      ∃ new, tableSlots key result.1 amount = tableSlots key t amount ++ new ∧
        new.map (fun slot => (slot.1, slot.2.toNat)) =
          (truePlaces key tx.outputs amount).map fun o => (index, o)

structure Narrow (b : Block) (txs : List Transaction) : Prop where
  outputs : ∀ tx ∈ b.baseTransaction :: txs, tx.outputs.length < 2 ^ 16
  transactions : txs.length + 1 < 2 ^ 16

theorem iterate_nextTransaction (ht k : ℕ) : nextTransaction^[k] ⟨ht, 0⟩ = position ht k := by
  induction k with
  | zero => rfl
  | succ _ ih => rw [Function.iterate_succ_apply', ih, position_next]

theorem tableSlots_pushOutputs (outs : List TransactionOutput) (t : Tables) (key : Bool)
    (amt : UInt64) : tableSlots key (pushOutputs idx 0 outs t).1 amt =
      tableSlots key t amt ++ slots (ofKind key) idx 0 outs amt := by
  obtain ⟨hk,hmul⟩ := pushOutputs_buckets idx 0 outs t amt
  cases key with
  | true =>
    rw [ofKind_true]
    exact hk
  | false =>
    rw [ofKind_false]
    have hmap := congrArg (List.map ChainPlaces.slotOf) hmul
    rw [List.map_append, List.map_map] at hmap
    exact hmap.trans (congrArg _ (List.map_id _))

theorem slots_true (key : Bool) (idx : TransactionIndex) (h : outs.length < 2 ^ 16) (amt : UInt64) :
    (slots (ofKind key) idx 0 outs amt).map (fun slot => (slot.1, slot.2.toNat)) =
      (truePlaces key outs amt).map fun o => (idx, o) := by
  rw [slots, truePlaces, List.map_filterMap, List.map_filterMap]
  apply List.filterMap_congr
  intro x hx
  have hlt := List.snd_lt_of_mem_zipIdx hx
  have hs : x.2 < 2 ^ 16 := by omega
  have hsa : (UInt16.ofNat x.2).toNat = x.2 := UInt16.toNat_ofNat_of_lt' hs
  split_ifs
  · simp only [Option.map_some, hsa]
  · rfl

theorem countersTrue_of_narrow {env : Env} (ht : ℕ) {b : Block} {txs : List Transaction}
    (h : Narrow b txs) : CountersTrue env ht b txs where
  pushes := fun tx htx idx t => ⟨_,_,pushLoop_short idx (h.outputs tx htx) t⟩
  scans := fun tx htx idx t => ⟨_,_,scanLoop_short idx (h.outputs tx htx) t⟩
  rebuilds := by
    intro blk hblk t
    have hlen := congrArg List.length hblk
    rw [List.length_map, List.length_cons] at hlen
    exact ⟨_,_,rebuildLoop_short ht (hlen ▸ h.transactions) t⟩
  payments := by
    intro blk hblk t
    have hlen := congrArg List.length hblk
    rw [List.length_map, List.length_cons] at hlen
    exact ⟨_,_,paymentLoop_short (hlen ▸ h.transactions) t⟩
  transactions := by
    intro k hk
    have hcnt := h.transactions
    rw [iterate_nextTransaction]
    exact position_toNat (by omega)
  outputs := by
    intro tx htx idx t fuel res hl key amt
    have hs := forLoop_unique hl (pushLoop_short idx (h.outputs tx htx) t)
    cases hs
    exact ⟨_,tableSlots_pushOutputs idx tx.outputs t key amt,
      slots_true key idx (h.outputs tx htx) amt⟩

/-- The loops over a block end and store true positions exactly if each of
its transactions has fewer than `2 ^ 16` outputs and the block, with its
coinbase, fewer than `2 ^ 16` transactions. -/
theorem countersTrue_iff (env : Env) (height : ℕ) (b : Block) (txs : List Transaction) :
    CountersTrue env height b txs ↔ Narrow b txs := by
  constructor
  · intro h
    constructor
    · intro tx htx
      by_contra hlo
      obtain ⟨fuel,result,hl⟩ := h.pushes tx htx ⟨height, 0⟩ Tables.empty
      rw [pushLoop_endless _ (not_lt.mp hlo)] at hl
      cases hl
    · by_contra hm
      let block : BlockEntry :=
        { startEntry b with transactions := (b.baseTransaction :: txs).map fun tx => ⟨tx, []⟩ }
      have hblk : block.transactions.map TransactionEntry.tx = b.baseTransaction :: txs := by
        show ((b.baseTransaction :: txs).map fun tx => (⟨tx, []⟩ : TransactionEntry)).map _ = _
        rw [List.map_map]
        exact List.map_id _
      have hlen : block.transactions.length = txs.length + 1 := by
        show ((b.baseTransaction :: txs).map _).length = _
        rw [List.length_map, List.length_cons]
      obtain ⟨fuel,result,hl⟩ := h.payments block hblk Tables.empty
      rw [paymentLoop_endless (hlen ▸ not_lt.mp hm)] at hl
      cases hl
  · exact countersTrue_of_narrow height

def wideCoinbase (n : ℕ) : Transaction :=
  { mint 2 1 5297658301515 (.key 1) with
    outputs := ⟨5297658301515, .key 1⟩ :: List.replicate n ⟨0, .key 1⟩ }

def wideBlock (n : ℕ) : Block := mine 2 1 111 (wideCoinbase n) []

theorem wideBlock_header (n : ℕ) : HeaderOk sampleEnv 111 sampleNode.main (wideBlock n) 1 := by
  have hovf : checkOutsOverflow (wideCoinbase n).toTransactionPrefix = true := by
    rw [checkOutsOverflow, wideCoinbase, List.map_cons, List.map_replicate]
    exact checkAmountsOverflow_zeros
  have hht : sampleNode.main.blocks.length = 1 := by decide +kernel
  have hnar : HeaderOk sampleEnv 111 sampleNode.main (wideBlock 0) 1 := by
    constructor <;> decide +kernel
  refine ⟨hnar.fresh,hnar.previous,hnar.timestamp,hnar.difficulty_eq,
    hnar.difficulty_ne,hnar.work,?_⟩
  rw [hht]
  exact hovf

/-- The block passes every check made before the tables are touched, and the
loop over the outputs of its coinbase never ends. -/
theorem wide_coinbase_never_entered : HeaderOk sampleEnv 111 sampleNode.main (wideBlock 65535) 1 ∧
    (∀ index fuel t, pushLoop index (wideBlock 65535).baseTransaction.outputs fuel t = none) ∧
    ∃ s, pushBlock sampleEnv 111 (wideBlock 65535) [] sampleNode.main = .error .endless s := by
  have hl : 2 ^ 16 ≤ (wideBlock 65535).baseTransaction.outputs.length := by
    simp only [wideBlock, mine, wideCoinbase, List.length_cons, List.length_replicate]
    decide
  refine ⟨wideBlock_header 65535,fun index fuel t => pushLoop_endless index hl fuel t,?_⟩
  have hU : Set.InjOn sampleEnv.getObjectHash {sampleCoinbase, wideCoinbase 65535} := by
    rintro x (rfl | rfl) y (rfl | rfl) h <;> first | rfl | exact absurd h (by decide)
  have hg := good_of_sizedRun hU (sampleNode_sized (.inl rfl))
  exact pushBlock_coinbase_endless hU (hg.built.sound hU)
    ⟨.inr rfl,by simp,by simp,rfl,by decide⟩ (wideBlock_header 65535) hl

end Orbis.ChainCounters
