import Orbis.ChainUndo
import Orbis.ChainBlock

/-!
# The transactions of a block as a stack

The transactions of a block enter the tables one on top of the other, each
at the next position. `popTransactions` removes them from the top, so the
tables before the block come back. What keeps a transaction from being
entered twice is stated once for all tables of a run: every recorded hash
belongs to a coinbase of a lower height or to a transaction whose inputs the
tables hold as spent.
-/

set_option autoImplicit false

namespace Orbis.ChainStack

open FaultState VectorTable ChainTypes ChainSemantic ChainTables ChainUndo ChainInputs

variable (env : Env) {t : Tables} {tx : Transaction} {input inp : TransactionInput}
  {U : Set Transaction} {txs : List Transaction} {amount amt : UInt64}
  {usage : MultisignatureOutputUsage} {hash : Hash} {n : ℕ} (idx : TransactionIndex)
  {ht k : ℕ}

def position (height k : ℕ) : TransactionIndex := ⟨height, UInt16.ofNat k⟩

def pairs (txs : List Transaction) : List (Transaction × Hash) :=
  txs.map fun tx => (tx, env.getObjectHash tx)

def enter (height k : ℕ) (tx : Transaction) (t : Tables) : Tables :=
  applyTransaction env tx (env.getObjectHash tx) (position height k) t

def enterAll (height : ℕ) : ℕ → List Transaction → Tables → Tables
  | _, [], t => t
  | k, tx :: rest, t => enterAll height (k + 1) rest (enter env height k tx t)

def AdmissibleAll (height : ℕ) : ℕ → List Transaction → Tables → Prop
  | _, [], _ => True
  | k, tx :: rest, t => Admissible t tx (env.getObjectHash tx) ∧
    AdmissibleAll height (k + 1) rest (enter env height k tx t)

theorem zip_eq_pairs (txs : List Transaction) (more : List Hash) :
    txs.zip (txs.map env.getObjectHash ++ more) = pairs env txs := by
  induction txs with
  | nil => rfl
  | cons _ _ ih =>
    rw [List.map_cons, List.cons_append, List.zip_cons_cons, ih]
    rfl

theorem enterAll_singleton :
    enterAll env ht k [tx] t = enter env ht k tx t := rfl

theorem enterAll_append {l r : List Transaction} : enterAll env ht k (l ++ r) t =
      enterAll env ht (k + l.length) r (enterAll env ht k l t) := by
  induction l generalizing k t with
  | nil => rfl
  | cons _ _ ih =>
    rw [List.cons_append, enterAll, enterAll, ih, List.length_cons]
    congr 1
    omega

theorem admissibleAll_append (hgt k : ℕ) (l r : List Transaction) (t : Tables) :
    AdmissibleAll env hgt k (l ++ r) t ↔ AdmissibleAll env hgt k l t ∧
      AdmissibleAll env hgt (k + l.length) r (enterAll env hgt k l t) := by
  induction l generalizing k t with
  | nil => simp [AdmissibleAll, enterAll]
  | cons x rest ih =>
    have hlen : k + 1 + rest.length = k + (x :: rest).length := by
      rw [List.length_cons]
      omega
    simp only [List.cons_append, AdmissibleAll, enterAll, ih, hlen, and_assoc]

theorem compact_enterAll (hgt k : ℕ) (txs : List Transaction) (hadm : AdmissibleAll env hgt k txs t)
    (hcpt : Compact t) : Compact (enterAll env hgt k txs t) := by
  induction txs generalizing k t with
  | nil => exact hcpt
  | cons _ _ ih => exact ih _ hadm.2 (compact_applyTransaction hadm.1 hcpt)

def SpentInput (t : Tables) : TransactionInput → Prop
  | .base _ => False
  | .key _ _ image => image ∈ t.spentKeys
  | .multisignature amount _ outputIndex => ∃ usage,
      (bucket t.multisignatureOutputs amount)[outputIndex.toNat]? = some usage ∧
        usage.isUsed = true

def Coinbase (n : ℕ) (tx : Transaction) : Prop := ∃ k < n, tx.inputs = [.base k]

def Settled (n : ℕ) (t : Tables) (tx : Transaction) : Prop :=
  Coinbase n tx ∨
    (tx.inputs ≠ [] ∧ ∀ input ∈ tx.inputs, SpentInput t input)

structure Recorded (U : Set Transaction) (n : ℕ) (t : Tables) : Prop where
  compact : Compact t
  known : ∀ hash ∈ t.transactionMap, ∃ tx ∈ U, env.getObjectHash tx = hash ∧ Settled n t tx

theorem recorded_empty (U : Set Transaction) : Recorded env U 0 Tables.empty where
  compact := ⟨tight_empty,tight_empty⟩
  known := by
    intro hash h
    exact absurd h Finmap.notMem_empty

variable {i n' : ℕ} {ins : List TransactionInput}

theorem pushOutput_getElem? (op : UInt16) (out : TransactionOutput)
    (h : (bucket t.multisignatureOutputs amt)[i]? = some usage) :
    (bucket (pushOutput idx op out t).multisignatureOutputs amt)[i]? = some usage := by
  unfold pushOutput
  cases out.target with
  | key _ => exact h
  | multisignature _ _ =>
    dsimp only
    by_cases ha : amt = out.amount
    · subst ha
      rw [bucket_pushBack, List.getElem?_append_left (List.getElem?_eq_some_iff.mp h).1, h]
    · rw [bucket_pushBack_of_ne ha, h]

theorem pushOutputs_getElem? {op : UInt16} {outs : List TransactionOutput}
    (h : (bucket t.multisignatureOutputs amt)[i]? = some usage) :
    (bucket (pushOutputs idx op outs t).1.multisignatureOutputs amt)[i]? = some usage := by
  induction outs generalizing op t with
  | nil => exact h
  | cons out _ ih => exact ih (pushOutput_getElem? idx op out h)

theorem applyTransaction_getElem? (hadm : Admissible t tx hash)
    (h : (bucket t.multisignatureOutputs amt)[i]? = some usage) :
    (bucket (applyTransaction env tx hash idx t).multisignatureOutputs amt)[i]? =
      some (if (amt, i) ∈ places tx.inputs then setUsed true usage else usage) := by
  apply pushOutputs_getElem?
  simp only [consumeInputs, insertTransaction]
  rw [getElem?_modifyAll _ _ (places_nodup hadm.spendable.spends), h]
  split_ifs <;> rfl

theorem lasting_applyTransaction {o : Transaction} (hadm : Admissible t tx hash)
    (h : Lasting t o) : Lasting (applyTransaction env tx hash idx t) o := by
  intro out hout hms hnil
  obtain ⟨usage,_,hold⟩ := List.exists_cons_of_ne_nil (h out hout hms)
  have hkept := applyTransaction_getElem? env idx hadm
    (show (bucket t.multisignatureOutputs out.amount)[0]? = some usage by rw [hold]; rfl)
  rw [hnil] at hkept
  cases hkept

theorem lasting_enterAll {hgt k : ℕ} {txs : List Transaction} {o : Transaction}
    (hadm : AdmissibleAll env hgt k txs t) (h : Lasting t o) :
    Lasting (enterAll env hgt k txs t) o := by
  induction txs generalizing k t with
  | nil => exact h
  | cons _ _ ih => exact ih hadm.2 (lasting_applyTransaction env _ hadm.1 h)

/-- Taking out a block that was entered on `t` gives `t` back, or empties a
multisignature amount that `t` does not have. -/
theorem popEntries_enterAll (hgt : ℕ) (base : Transaction) (txs : List Transaction)
    (hadm : AdmissibleAll env hgt 0 (base :: txs) t) (hcpt : Compact t) :
    popEntries env (env.getObjectHash base) base (pairs env txs).reverse
        (enterAll env hgt 0 (base :: txs) t) = .ok ⟨⟩ t ∨
      ¬ (∀ tx ∈ base :: txs, Lasting t tx) ∧
        ∃ left, popEntries env (env.getObjectHash base) base (pairs env txs).reverse
          (enterAll env hgt 0 (base :: txs) t) = .error .erased left := by
  induction txs using List.reverseRecOn with
  | nil =>
    refine (popTransaction_applyTransaction hadm.1 hcpt).imp_right ?_
    rintro ⟨hnot,herr⟩
    exact ⟨fun hl => hnot (hl base (by simp)),herr⟩
  | append_singleton done last ih =>
    rw [← List.cons_append] at hadm ⊢
    obtain ⟨hd,hl⟩ := (admissibleAll_append env hgt 0 _ [last] t).mp hadm
    have hcompactDone := compact_enterAll env hgt 0 _ hd hcpt
    rw [pairs, List.map_append, List.reverse_append, enterAll_append, enterAll_singleton]
    simp only [List.map_cons, List.map_nil, List.reverse_singleton, List.singleton_append,
      popEntries]
    rw [enter]
    rcases popTransaction_applyTransaction hl.1 hcompactDone with hok | ⟨hnot,left,herr⟩
    · rw [bind_of_ok hok]
      refine (ih hd).imp_right ?_
      rintro ⟨hsome,hfault⟩
      exact ⟨fun hall => hsome fun tx htx => hall tx (List.mem_append_left _ htx),hfault⟩
    · exact .inr ⟨fun hall => hnot (lasting_enterAll env hd (hall last (by simp))),
        left,bind_of_error herr⟩

theorem applyTransaction_spentKeys {ix : TransactionIndex} :
    (applyTransaction env tx hash ix t).spentKeys = t.spentKeys ∪ (keyImages tx.inputs).toFinset :=
  (pushOutputs_rest ix 0 tx.outputs _).2.1

theorem applyTransaction_transactionMap {ix : TransactionIndex} :
    (applyTransaction env tx hash ix t).transactionMap = t.transactionMap.insert hash ix :=
  (pushOutputs_rest ix 0 tx.outputs _).1

theorem spentInput_applyTransaction (hadm : Admissible t tx hash) (h : SpentInput t inp) :
    SpentInput (applyTransaction env tx hash idx t) inp := by
  cases inp with
  | base _ => exact h
  | key _ _ _ =>
    simp only [SpentInput] at h ⊢
    rw [applyTransaction_spentKeys]
    exact Finset.mem_union_left _ h
  | multisignature _ _ _ =>
    obtain ⟨_,hus,hu⟩ := h
    refine ⟨_,applyTransaction_getElem? env idx hadm hus,?_⟩
    split_ifs
    · rfl
    · exact hu

theorem mem_keyImages {idxs : List UInt32} {im : KeyImage}
    (h : .key amt idxs im ∈ ins) : im ∈ keyImages ins :=
  List.mem_filterMap.mpr ⟨_,h,rfl⟩

theorem mem_multisignatureSpends {cnt : UInt8} {oi : UInt32}
    (h : .multisignature amt cnt oi ∈ ins) : (amt, oi) ∈ multisignatureSpends ins :=
  List.mem_filterMap.mpr ⟨_,h,rfl⟩

theorem spentInput_of_applied (hadm : Admissible t tx hash) (hin : inp ∈ tx.inputs)
    (hsup : isSupported inp = true) : SpentInput (applyTransaction env tx hash idx t) inp := by
  cases inp with
  | base _ => exact Bool.noConfusion hsup
  | key _ _ _ =>
    simp only [SpentInput]
    rw [applyTransaction_spentKeys]
    exact Finset.mem_union_right _ (List.mem_toFinset.mpr (mem_keyImages hin))
  | multisignature amt _ oi =>
    have hspd := mem_multisignatureSpends hin
    obtain ⟨_,hus,-⟩ := hadm.spendable.unused _ hspd
    have hpl : (amt, oi.toNat) ∈ places tx.inputs := List.mem_map.mpr ⟨_,hspd,rfl⟩
    refine ⟨_,applyTransaction_getElem? env idx hadm hus,?_⟩
    rw [if_pos hpl]
    rfl

theorem settled_applyTransaction {n : ℕ} (hn : n ≤ n') {tx o : Transaction} (ix : TransactionIndex)
    (hadm : Admissible t tx hash) (h : Settled n t o) :
    Settled n' (applyTransaction env tx hash ix t) o := by
  rcases h with ⟨k,_,hins⟩ | ⟨hne,hsp⟩
  · exact .inl ⟨k,by omega,hins⟩
  · exact .inr ⟨hne,fun inp hin => spentInput_applyTransaction env ix hadm (hsp inp hin)⟩

theorem recorded_applyTransaction {n : ℕ} (hn : n ≤ n') (ix : TransactionIndex)
    (h : Recorded env U n t) (hadm : Admissible t tx (env.getObjectHash tx)) (htx : tx ∈ U)
    (hk : Coinbase n' tx ∨ tx.inputs ≠ [] ∧ ∀ inp ∈ tx.inputs, isSupported inp = true) :
    Recorded env U n' (applyTransaction env tx (env.getObjectHash tx) ix t) where
  compact := compact_applyTransaction hadm h.compact
  known := by
    intro hash hh
    rw [applyTransaction_transactionMap, Finmap.mem_insert] at hh
    rcases hh with rfl | hh
    · refine ⟨tx,htx,rfl,?_⟩
      rcases hk with hb | ⟨hne,hsup⟩
      · exact .inl hb
      · exact .inr ⟨hne,fun inp hin => spentInput_of_applied env ix hadm hin (hsup inp hin)⟩
    · obtain ⟨o,hoth,hash_eq,hset⟩ := h.known hash hh
      exact ⟨o,hoth,hash_eq,settled_applyTransaction env hn ix hadm hset⟩

theorem not_free_of_spent (h : SpentInput t inp) : ¬ FreeInput t inp := by
  cases inp with
  | base _ => exact h.elim
  | key _ _ _ => exact not_not.mpr h
  | multisignature _ _ _ =>
    rintro ⟨_,hus,hf⟩
    obtain ⟨_,hu,ht⟩ := h
    rw [hu, Option.some.injEq] at hus
    rw [hus, hf] at ht
    cases ht

theorem spendable_of_free (hsem : Semantic env.ops tx.toTransactionPrefix)
    (hf : ∀ inp ∈ tx.inputs, FreeInput t inp) : Spendable t tx.inputs where
  images := hsem.images
  unspent := by
    intro im him
    obtain ⟨inp,hin,hs⟩ := List.mem_filterMap.mp him
    cases inp <;> cases hs
    exact hf _ hin
  spends := hsem.spends
  unused := by
    intro spend hspd
    obtain ⟨inp,hin,hs⟩ := List.mem_filterMap.mp hspd
    cases inp <;> cases hs
    exact hf _ hin

theorem fresh_of_free (hU : TxInj env U) (h : Recorded env U n t) (htx : tx ∈ U)
    (hne : tx.inputs ≠ []) (hf : ∀ inp ∈ tx.inputs, FreeInput t inp) :
    env.getObjectHash tx ∉ t.transactionMap := by
  intro hmem
  obtain ⟨o,hoth,hash_eq,hset⟩ := h.known _ hmem
  have heq : o = tx := hU hoth htx hash_eq
  subst heq
  rcases hset with ⟨k,-,hins⟩ | ⟨-,hsp⟩
  · exact hf (.base k) (by simp [hins])
  · obtain ⟨inp,hin⟩ := List.exists_mem_of_ne_nil _ hne
    exact not_free_of_spent (hsp inp hin) (hf inp hin)

theorem admissible_of_checked (hU : TxInj env U) (h : Recorded env U n t)
    (htx : tx ∈ U) (hsem : Semantic env.ops tx.toTransactionPrefix)
    (hf : ∀ inp ∈ tx.inputs, FreeInput t inp) (hsh : tx.outputs.length < 2 ^ 16) :
    Admissible t tx (env.getObjectHash tx) where
  fresh := fresh_of_free env hU h htx hsem.inputs_ne hf
  spendable := spendable_of_free env hsem hf
  short := hsh

theorem fresh_coinbase (hU : TxInj env U) (h : Recorded env U n t) (htx : tx ∈ U)
    (hins : tx.inputs = [.base n]) : env.getObjectHash tx ∉ t.transactionMap := by
  intro hmem
  obtain ⟨o,hoth,hash_eq,hset⟩ := h.known _ hmem
  have heq : o = tx := hU hoth htx hash_eq
  subst heq
  rcases hset with ⟨_,_,hb⟩ | ⟨-,hsp⟩
  · rw [hins] at hb
    cases hb
    omega
  · exact hsp (.base n) (by simp [hins])

theorem spendable_coinbase (hins : tx.inputs = [.base n]) : Spendable t tx.inputs := by
  constructor <;> simp [hins]

theorem admissible_coinbase (hU : TxInj env U) (h : Recorded env U n t)
    (htx : tx ∈ U) (hins : tx.inputs = [.base n]) (hsh : tx.outputs.length < 2 ^ 16) :
    Admissible t tx (env.getObjectHash tx) where
  fresh := fresh_coinbase env hU h htx hins
  spendable := spendable_coinbase hins
  short := hsh

theorem mem_transactionMap_enterAll (h : hash ∈ t.transactionMap) :
    hash ∈ (enterAll env ht k txs t).transactionMap := by
  induction txs generalizing k t with
  | nil => exact h
  | cons _ _ ih =>
    refine ih ?_
    rw [enter, applyTransaction_transactionMap, Finmap.mem_insert]
    exact .inr h

theorem spentInput_enterAll (hadm : AdmissibleAll env ht k txs t) (h : SpentInput t inp) :
    SpentInput (enterAll env ht k txs t) inp := by
  induction txs generalizing k t with
  | nil => exact h
  | cons _ _ ih => exact ih hadm.2 (spentInput_applyTransaction env _ hadm.1 h)

theorem spentInput_of_entered (hadm : AdmissibleAll env ht k txs t) (htx : tx ∈ txs)
    (hin : inp ∈ tx.inputs) (hsup : isSupported inp = true) :
    SpentInput (enterAll env ht k txs t) inp := by
  induction txs generalizing k t with
  | nil => cases htx
  | cons _ _ ih =>
    rcases List.mem_cons.mp htx with rfl | hr
    · exact spentInput_enterAll (k := k + 1) env hadm.2
        (spentInput_of_applied env _ hadm.1 hin hsup)
    · exact ih hadm.2 hr

theorem nodup_of_admissibleAll (hadm : AdmissibleAll env ht k txs t) :
    (txs.map env.getObjectHash).Nodup ∧ ∀ tx ∈ txs, env.getObjectHash tx ∉ t.transactionMap := by
  induction txs generalizing k t with
  | nil => simp
  | cons tx rest ih =>
    obtain ⟨hnd,hfr⟩ := ih hadm.2
    have hr : ∀ o ∈ rest, env.getObjectHash o ≠ env.getObjectHash tx ∧
        env.getObjectHash o ∉ t.transactionMap := by
      intro o hoth
      have hnot := hfr o hoth
      rw [enter, applyTransaction_transactionMap, Finmap.mem_insert, not_or] at hnot
      exact hnot
    refine ⟨?_,?_⟩
    · rw [List.map_cons, List.nodup_cons]
      refine ⟨fun hmem => ?_,hnd⟩
      obtain ⟨o,hoth,heq⟩ := List.mem_map.mp hmem
      exact (hr o hoth).1 heq
    · intro o hoth
      rcases List.mem_cons.mp hoth with rfl | hmem
      · exact hadm.1.fresh
      · exact (hr o hmem).2

end Orbis.ChainStack
