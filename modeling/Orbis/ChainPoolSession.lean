import Orbis.ChainLedger
import Orbis.ChainPoolInputs

/-!
# The tables of the pool over a session

The pool answers three questions from tables of its own: which transactions
use a key image, which multisignature outputs are taken, and which
transactions carry a payment id or came at a given time. The first two tables
agree with the transactions after any sequence of operations. The table of
payment ids does not: a transaction is entered into it only when the pool is
loaded from its file.
-/

set_option autoImplicit false

namespace Orbis.ChainPoolSession

open ChainTypes ChainSemantic ChainTables ChainBlock ChainPool ChainPoolIndex
open ChainPoolInputs ChainRun ChainLedger

variable {l : List TransactionDetails} {d : TransactionDetails} {tx : Transaction}
variable {loaded : Finset Hash} {p : Pool}

variable {entry : Hash × Hash} {r : List TransactionDetails} {p' : Pool} {Q : Transaction → Prop}

section Session

variable (env : Env)

/-- What the file of the pool holds: everything but the two lookup indexes. -/
def serialize (p : Pool) : Pool := { p with paymentIdIndex := 0, timestampIndex := 0 }

def paymentsOf (l : List TransactionDetails) : Multiset (Hash × Hash) :=
  (l : Multiset TransactionDetails).bind fun d => paymentIds env d.tx

def buildIndices (p : Pool) : Pool :=
  { p with
    paymentIdIndex := p.paymentIdIndex + paymentsOf env p.transactions
    timestampIndex := p.timestampIndex + ↑(p.transactions.map fun d => (d.receiveTime, d.id)) }

def init (now : UInt64) (file : Option Pool) : Pool :=
  removeExpiredTransactions env now (match file with
    | none => Pool.empty
    | some saved => buildIndices env saved)

def ids (p : Pool) : Finset Hash := (p.transactions.map TransactionDetails.id).toFinset

/-- The states of a pool, with the ids of those of its transactions that it has
had since it was last started. Transactions are handed to it with their hash
as id. -/
inductive Session (Q : Transaction → Prop) : Finset Hash → Pool → Prop
  | start {now : UInt64} : Session Q ∅ (init env now none)
  | add {loaded : Finset Hash} {p p' : Pool} {now limit blobSize : UInt64} {m : MainChain}
      {tx : Transaction} {keptByBlock added : Bool} {tvc : TxVerificationContext}
      (before : Session Q loaded p) (allowed : Q tx)
      (call : addTx env now m limit tx (env.getObjectHash tx) blobSize keptByBlock p =
        .ok ((added, tvc), p')) : Session Q loaded p'
  | take {loaded : Finset Hash} {p : Pool} {id : Hash} (before : Session Q loaded p) :
      Session Q (loaded.erase id) (takeTx env id p).2
  | expire {loaded : Finset Hash} {p : Pool} {now : UInt64} (before : Session Q loaded p) :
      Session Q (loaded ∩ ids (removeExpiredTransactions env now p))
        (removeExpiredTransactions env now p)
  | restart {loaded : Finset Hash} {p : Pool} {now : UInt64} (before : Session Q loaded p) :
      Session Q (ids (init env now (some (serialize p)))) (init env now (some (serialize p)))

variable {env} (now : UInt64)

theorem perm_filter_id (hl : (l.map TransactionDetails.id).Nodup) (hd : d ∈ l) :
    l.Perm (d :: l.filter fun o => o.id != d.id) := by
  induction l with
  | nil => cases hd
  | cons e _ ih =>
    rw [List.map_cons, List.nodup_cons] at hl
    rcases List.mem_cons.mp hd with rfl | hr
    · rw [List.filter_cons_of_neg (by simp), List.filter_eq_self.mpr]
      intro o hoth
      rw [bne_iff_ne]
      intro heq
      exact hl.1 (heq ▸ List.mem_map_of_mem hoth)
    · have hne : e.id ≠ d.id := fun heq => hl.1 (heq ▸ List.mem_map_of_mem hr)
      rw [List.filter_cons_of_pos (by simpa using hne)]
      exact ((ih hl.2 hr).cons e).trans (List.Perm.swap d e _)

structure Looked (env : Env) (loaded : Finset Hash) (p : Pool) : Prop where
  distinct : (p.transactions.map TransactionDetails.id).Nodup
  named : ∀ d ∈ p.transactions, d.id = env.getObjectHash d.tx
  times : p.timestampIndex = ↑(p.transactions.map fun d => (d.receiveTime, d.id))
  payments : p.paymentIdIndex = paymentsOf env (p.transactions.filter fun d => d.id ∈ loaded)

theorem mem_paymentIds (h : entry ∈ paymentIds env tx) : entry.2 = env.getObjectHash tx := by
  unfold paymentIds at h
  cases hid : env.getPaymentId tx.extra with
  | none => simp [hid] at h
  | some _ =>
    rw [hid] at h
    rw [Multiset.mem_singleton.mp h]

theorem mem_paymentsOf : entry ∈ paymentsOf env l ↔ ∃ d ∈ l, entry ∈ paymentIds env d.tx := by
  rw [paymentsOf, Multiset.mem_bind]
  rfl

theorem paymentsOf_cons : paymentsOf env (d :: l) = paymentIds env d.tx + paymentsOf env l := by
  rw [paymentsOf, ← Multiset.cons_coe, Multiset.cons_bind]
  rfl

theorem paymentsOf_append {l : List TransactionDetails} :
    paymentsOf env (l ++ r) = paymentsOf env l + paymentsOf env r := by
  rw [paymentsOf, ← Multiset.coe_add, Multiset.add_bind]
  rfl

theorem paymentsOf_perm (h : l.Perm r) : paymentsOf env l = paymentsOf env r := by
  rw [paymentsOf, Multiset.coe_eq_coe.mpr h, paymentsOf]

theorem sub_paymentIds {s : Multiset (Hash × Hash)} (h : ∀ entry ∈ s, entry ∉ paymentIds env tx)
    : s - paymentIds env tx = s := by
  unfold paymentIds at h ⊢
  cases hid : env.getPaymentId tx.extra with
  | none => exact tsub_zero s
  | some _ =>
    rw [hid] at h
    apply Multiset.sub_singleton _ _ |>.trans
    apply Multiset.erase_of_notMem
    exact fun hmem => h _ hmem (Multiset.mem_singleton_self _)

theorem removeTransaction_looked (h : Looked env loaded p) (hd : d ∈ p.transactions) :
    Looked env loaded (removeTransaction env d p) := by
  have hp := perm_filter_id h.distinct hd
  have htxs := removeTransaction_transactions env d p
  have hixs := removeTransactionInputs_indexes d.id d.keptByBlock d.tx.inputs p
  refine ⟨?_,?_,?_,?_⟩
  · rw [htxs]
    exact h.distinct.sublist (List.filter_sublist.map _)
  · intro e he
    rw [htxs] at he
    exact h.named e (List.mem_of_mem_filter he)
  · rw [htxs]
    change (removeTransactionInputs d.id d.keptByBlock d.tx.inputs p).timestampIndex.erase _ = _
    rw [hixs.2, h.times, Multiset.coe_eq_coe.mpr (hp.map _), List.map_cons,
      ← Multiset.cons_coe, Multiset.erase_cons_head]
  · rw [htxs]
    change (removeTransactionInputs d.id d.keptByBlock d.tx.inputs p).paymentIdIndex - _ = _
    rw [hixs.1, h.payments, paymentsOf_perm (hp.filter _)]
    by_cases hlod : d.id ∈ loaded
    · rw [List.filter_cons_of_pos (by simpa using hlod), paymentsOf_cons, add_tsub_cancel_left]
    · rw [List.filter_cons_of_neg (by simpa using hlod)]
      apply sub_paymentIds
      -- an entry names a transaction by its hash, so none of the others has it
      intro entry hent hown
      obtain ⟨e,he,hmem⟩ := mem_paymentsOf.mp hent
      have hoth := List.mem_filter.mp (List.mem_of_mem_filter he)
      have hid : e.id = d.id := by
        rw [h.named e hoth.1, h.named d hd, ← mem_paymentIds hmem, mem_paymentIds hown]
      exact (bne_iff_ne.mp hoth.2) hid

theorem Looked.congr {loaded' : Finset Hash} (h : Looked env loaded p)
    (hs : ∀ d ∈ p.transactions, d.id ∈ loaded ↔ d.id ∈ loaded') : Looked env loaded' p where
  distinct := h.distinct
  named := h.named
  times := h.times
  payments := by
    rw [h.payments]
    congr 1
    apply List.filter_congr
    intro d hd
    simp only [hs d hd]

theorem looked_empty : Looked env ∅ Pool.empty where
  distinct := List.nodup_nil
  named := by simp [Pool.empty]
  times := rfl
  payments := rfl

theorem recordDeleted_looked (id : Hash) (h : Looked env loaded p) :
    Looked env loaded (recordDeleted now id p) := by
  unfold recordDeleted
  split_ifs
  · exact h
  · exact ⟨h.distinct,h.named,h.times,h.payments⟩

theorem removeExpiredTransactions_looked (h : Looked env loaded p) :
    Looked env loaded (removeExpiredTransactions env now p) := by
  apply removeExpired_keeps (I := Looked env loaded)
  · exact fun q id hq => recordDeleted_looked now id hq
  · exact fun q d hq hd => removeTransaction_looked hq hd
  · exact h.distinct
  · exact fun d hd => hd
  · exact ⟨h.distinct,h.named,h.times,h.payments⟩

theorem looked_of_stored (hsto : Stored d p p') (h : Looked env loaded p) (hlod : loaded ⊆ ids p)
    (hid : d.id = env.getObjectHash d.tx) : Looked env loaded p' := by
  have hixs := addTransactionInputs_indexes d.id d.keptByBlock d.tx.inputs (insertDetails d p)
  rw [← hsto.pool] at hixs
  have hnew : d.id ∉ loaded := by
    intro hmem
    obtain ⟨e,he,heq⟩ := List.mem_map.mp (List.mem_toFinset.mp (hlod hmem))
    exact haveTx_eq_false hsto.fresh e he heq
  refine ⟨?_,?_,?_,?_⟩
  · rw [hsto.transactions, List.map_append, List.map_singleton, ← List.concat_eq_append]
    apply h.distinct.concat
    intro hmem
    obtain ⟨e,he,heq⟩ := List.mem_map.mp hmem
    exact haveTx_eq_false hsto.fresh e he heq
  · intro e he
    rw [hsto.transactions] at he
    rcases List.mem_append.mp he with hold | hl
    · exact h.named e hold
    · rw [List.mem_singleton.mp hl]
      exact hid
  · rw [hixs.2, hsto.transactions, List.map_append, ← Multiset.coe_add, add_comm]
    change (d.receiveTime, d.id) ::ₘ p.timestampIndex = _
    rw [h.times]
    rfl
  · rw [hixs.1, hsto.transactions, List.filter_append,
      List.filter_cons_of_neg (by simpa using hnew), List.filter_nil, List.append_nil]
    exact h.payments

theorem ids_removeTransaction (d : TransactionDetails) (p : Pool) :
    ids (removeTransaction env d p) = (ids p).erase d.id := by
  ext id
  rw [ids, removeTransaction_transactions]
  simp only [ids, List.mem_toFinset, List.mem_map, List.mem_filter, bne_iff_ne, Finset.mem_erase]
  constructor
  · rintro ⟨e,⟨he,hne⟩,rfl⟩
    exact ⟨hne,e,he,rfl⟩
  · rintro ⟨hne,e,he,rfl⟩
    exact ⟨e,⟨he,hne⟩,rfl⟩

theorem buildIndices_looked (h : Looked env loaded p) :
    Looked env (ids p) (buildIndices env (serialize p)) where
  distinct := h.distinct
  named := h.named
  times := Multiset.zero_add _
  payments := by
    have hall : p.transactions.filter (fun d => d.id ∈ ids p) = p.transactions := by
      apply List.filter_eq_self.mpr
      intro d hd
      exact decide_eq_true (List.mem_toFinset.mpr (List.mem_map_of_mem hd))
    change 0 + paymentsOf env p.transactions = paymentsOf env (p.transactions.filter _)
    rw [hall, zero_add]

theorem Session.looked (h : Session env Q loaded p) : Looked env loaded p ∧ loaded ⊆ ids p := by
  induction h with
  | start => exact ⟨removeExpiredTransactions_looked _ looked_empty,Finset.empty_subset _⟩
  | add _ _ call ih =>
    rcases addTx_cases call with rfl | ⟨d,hsto,hid,rfl,-,-⟩
    · exact ih
    · refine ⟨looked_of_stored hsto ih.1 ih.2 hid,ih.2.trans ?_⟩
      rw [ids, ids, hsto.transactions, List.map_append, List.toFinset_append]
      exact Finset.subset_union_left
  | @take loaded p id _ ih =>
    obtain ⟨hl,hlod⟩ := ih
    rcases takeTx_cases env id p with ⟨hn,ht⟩ | ⟨d,hd,rfl,ht⟩
    · have hout : id ∉ loaded := by
        intro hmem
        obtain ⟨d,hd,hid⟩ := List.mem_map.mp (List.mem_toFinset.mp (hlod hmem))
        exact hn d hd hid
      rw [ht, Finset.erase_eq_of_notMem hout]
      exact ⟨hl,hlod⟩
    · rw [ht]
      refine ⟨(removeTransaction_looked hl hd).congr ?_,?_⟩
      · intro e he
        rw [removeTransaction_transactions, List.mem_filter, bne_iff_ne] at he
        rw [Finset.mem_erase]
        exact (and_iff_right he.2).symm
      · change loaded.erase d.id ⊆ ids (removeTransaction env d p)
        rw [ids_removeTransaction]
        exact Finset.erase_subset_erase _ hlod
  | expire _ ih =>
    refine ⟨(removeExpiredTransactions_looked _ ih.1).congr ?_,Finset.inter_subset_right⟩
    intro d hd
    rw [Finset.mem_inter]
    exact (and_iff_left (List.mem_toFinset.mpr (List.mem_map_of_mem hd))).symm
  | restart _ ih =>
    refine ⟨(removeExpiredTransactions_looked _ (buildIndices_looked ih.1)).congr ?_,le_rfl⟩
    intro d hd
    have hold := mem_of_mem_removeExpired _ _ _ _ hd
    exact iff_of_true (List.mem_toFinset.mpr (List.mem_map_of_mem hold))
      (List.mem_toFinset.mpr (List.mem_map_of_mem hd))

structure LookupExact (env : Env) (p : Pool) : Prop where
  payments : p.paymentIdIndex = ↑(p.transactions.filterMap fun d =>
    (env.getPaymentId d.tx.extra).map fun paymentId => (paymentId, d.id))
  times : p.timestampIndex = ↑(p.transactions.map fun d => (d.receiveTime, d.id))

theorem paymentsOf_eq (h : ∀ d ∈ l, d.id = env.getObjectHash d.tx) :
    paymentsOf env l = ↑(l.filterMap fun d =>
      (env.getPaymentId d.tx.extra).map fun paymentId => (paymentId, d.id)) := by
  induction l with
  | nil => rfl
  | cons d _ ih =>
    rw [paymentsOf_cons, ih fun e he => h e (List.mem_cons_of_mem _ he), List.filterMap_cons,
      paymentIds, h d List.mem_cons_self]
    cases env.getPaymentId d.tx.extra with
    | none => exact zero_add _
    | some _ => rfl

theorem paymentIds_eq_zero : paymentIds env tx = 0 ↔ env.getPaymentId tx.extra = none := by
  unfold paymentIds
  cases env.getPaymentId tx.extra with
  | none => simp
  | some _ => simp

/-- After any sequence of operations the lookup indexes are exact if and only
if every transaction that the pool has taken since it was started carries no
payment id. -/
theorem lookupExact_iff {Q : Transaction → Prop} {loaded : Finset Hash} {p : Pool}
    (h : Session env Q loaded p) : LookupExact env p ↔
      ∀ d ∈ p.transactions, d.id ∉ loaded → env.getPaymentId d.tx.extra = none := by
  obtain ⟨hl,-⟩ := h.looked
  have hall := paymentsOf_eq hl.named
  have hspl : paymentsOf env p.transactions = p.paymentIdIndex +
      paymentsOf env (p.transactions.filter fun d => !decide (d.id ∈ loaded)) := by
    rw [hl.payments, ← paymentsOf_append]
    exact (paymentsOf_perm (List.filter_append_perm _ _)).symm
  constructor
  · intro hex d hd hnew
    rw [hall.trans hex.payments.symm] at hspl
    have hz := left_eq_add.mp hspl
    apply paymentIds_eq_zero.mp
    apply Multiset.eq_zero_of_forall_notMem
    intro entry hent
    have hmem : entry ∈ paymentsOf env (p.transactions.filter fun d => !decide (d.id ∈ loaded)) :=
      mem_paymentsOf.mpr ⟨d,List.mem_filter.mpr ⟨hd,by simpa using hnew⟩,hent⟩
    rw [hz] at hmem
    exact Multiset.notMem_zero _ hmem
  · intro hn
    have hz : paymentsOf env (p.transactions.filter fun d => !decide (d.id ∈ loaded)) = 0 := by
      apply Multiset.eq_zero_of_forall_notMem
      intro entry hent
      obtain ⟨d,hd,hmem⟩ := mem_paymentsOf.mp hent
      obtain ⟨hold,hnew⟩ := List.mem_filter.mp hd
      rw [paymentIds_eq_zero.mpr (hn d hold (by simpa using hnew))] at hmem
      exact Multiset.notMem_zero _ hmem
    rw [hz, add_zero] at hspl
    exact ⟨hspl.symm.trans hall,hl.times⟩

def Checked (env : Env) (tx : Transaction) : Prop :=
  checkTxSemantic env.ops tx.toTransactionPrefix = true

theorem Checked.images (h : Checked env tx) : (keyImages tx.inputs).Nodup :=
  ((checkTxSemantic_iff _ _).mp h).images

structure Upright (env : Env) (p : Pool) : Prop where
  consistent : Consistent p
  checked : ∀ d ∈ p.transactions, Checked env d.tx

theorem removeTransaction_upright (h : Upright env p) (hd : d ∈ p.transactions)
    : Upright env (removeTransaction env d p) where
  consistent := removeTransaction_consistent h.consistent hd (h.checked d hd).images
  checked := by
    intro e he
    rw [removeTransaction_transactions] at he
    exact h.checked e (List.mem_of_mem_filter he)

theorem takeTx_upright (id : Hash) (h : Upright env p) : Upright env (takeTx env id p).2 := by
  rcases takeTx_cases env id p with ⟨-,ht⟩ | ⟨_,hd,-,ht⟩
  · rwa [ht]
  · rw [ht]
    exact removeTransaction_upright h hd

theorem addTx_upright {m : MainChain} {now limit : UInt64} {id : Hash} {bsz : UInt64}
    {kb added : Bool} {tvc : TxVerificationContext} (h : Upright env p) (htx : Checked env tx)
    (hc : addTx env now m limit tx id bsz kb p = .ok ((added, tvc), p')) : Upright env p' := by
  rcases addTx_cases hc with rfl | ⟨d,hsto,-,rfl,rfl,-,hf⟩
  · exact h
  · refine ⟨hsto.consistent h.consistent htx.images (hf.imp_right And.left),?_⟩
    intro e he
    rw [hsto.transactions] at he
    rcases List.mem_append.mp he with hold | hl
    · exact h.checked e hold
    · rw [List.mem_singleton.mp hl]
      exact htx

theorem recordDeleted_upright (id : Hash) (h : Upright env p) :
    Upright env (recordDeleted now id p) := by
  unfold recordDeleted
  split_ifs
  · exact h
  · exact ⟨⟨⟨h.consistent.distinct,h.consistent.images⟩,h.consistent.occupied,
      h.consistent.outputs,h.consistent.apart⟩,h.checked⟩

theorem removeExpiredTransactions_upright (h : Upright env p) :
    Upright env (removeExpiredTransactions env now p) := by
  apply removeExpired_keeps (I := Upright env)
  · exact fun q id hq => recordDeleted_upright now id hq
  · exact fun q d hq hd => removeTransaction_upright hq hd
  · exact h.consistent.distinct
  · exact fun d hd => hd
  · exact ⟨⟨⟨h.consistent.distinct,h.consistent.images⟩,h.consistent.occupied,
      h.consistent.outputs,h.consistent.apart⟩,h.checked⟩

theorem Session.upright (h : Session env (Checked env) loaded p) : Upright env p := by
  induction h with
  | start =>
    apply removeExpiredTransactions_upright
    exact ⟨consistent_empty,by simp [Pool.empty]⟩
  | add _ allowed call ih => exact addTx_upright ih allowed call
  | take _ ih => exact takeTx_upright _ ih
  | expire _ ih => exact removeExpiredTransactions_upright _ ih
  | restart _ ih =>
    apply removeExpiredTransactions_upright
    exact ⟨⟨⟨ih.consistent.distinct,ih.consistent.images⟩,ih.consistent.occupied,
      ih.consistent.outputs,ih.consistent.apart⟩,ih.checked⟩

structure InputTablesExact (p : Pool) : Prop where
  images : ∀ image users, p.spentKeyImages.lookup image = some users ↔
    users.Nonempty ∧ ∀ id, id ∈ users ↔
      ∃ d ∈ p.transactions, d.id = id ∧ image ∈ keyImages d.tx.inputs
  outputs : ∀ place, place ∈ p.spentOutputs ↔
    ∃ d ∈ p.transactions, d.keptByBlock = false ∧ place ∈ multisignatureSpends d.tx.inputs
  apart : p.transactions.Pairwise fun d e => d.keptByBlock = false → e.keptByBlock = false →
    (keyImages d.tx.inputs).Disjoint (keyImages e.tx.inputs) ∧
      (multisignatureSpends d.tx.inputs).Disjoint (multisignatureSpends e.tx.inputs)

theorem inputTables_of_session {loaded : Finset Hash} {p : Pool}
    (h : Session env (Checked env) loaded p) : InputTablesExact p := by
  have hp := h.upright.consistent
  refine ⟨?_,?_,hp.apart⟩
  · intro image users
    have hmem : ∀ id, id ∈ imageSet image p ↔
        ∃ d ∈ p.transactions, d.id = id ∧ image ∈ keyImages d.tx.inputs := hp.images image
    constructor
    · intro hl
      have hset : imageSet image p = users := by rw [imageSet, hl, Option.getD_some]
      refine ⟨Finset.nonempty_iff_ne_empty.mpr ?_,?_⟩
      · rintro rfl
        exact hp.occupied image hl
      · rw [← hset]
        exact hmem
    · rintro ⟨hne,hu⟩
      have hset : imageSet image p = users := by
        ext id
        rw [hmem, hu]
      rw [imageSet] at hset
      cases hl : p.spentKeyImages.lookup image with
      | none =>
        rw [hl] at hset
        exact absurd hset.symm hne.ne_empty
      | some _ =>
        rw [hl] at hset
        exact congrArg some hset
  · intro place
    rw [hp.outputs]
    constructor
    · rintro ⟨d,hd,hpl⟩
      have hos := outside_of_taken hpl
      exact ⟨d,hd,hos,taken_of_outside hos ▸ hpl⟩
    · rintro ⟨d,hd,hos,hpl⟩
      exact ⟨d,hd,(taken_of_outside hos).symm ▸ hpl⟩

end Session

def smallSpend (label : UInt8) : Transaction where
  version := 1
  unlockTime := 0
  inputs := [.multisignature 5297660827636 0 0]
  outputs := [⟨1, .multisignature [] 0⟩]
  extra := [label]
  signatures := [[]]
  signed := genesisSpend_signed

def payingEnv : Env := { sampleEnv with getPaymentId := fun _ => some 7 }

def offer (env : Env) (tx : Transaction) (keptByBlock : Bool) (p : Pool) :
    Except Fault ((Bool × TxVerificationContext) × Pool) :=
  addTx env 0 sampleNode.main 100000 tx (env.getObjectHash tx) (getObjectBinarySize tx)
    keptByBlock p

def after (p : Pool) : Except Fault ((Bool × TxVerificationContext) × Pool) → Pool
  | .ok (_, p') => p'
  | .error _ => p

theorem after_session {env : Env} {now limit bsz : UInt64} {m : MainChain} {kb : Bool}
    (hp : Session env Q loaded p) (hQ : Q tx) : Session env Q loaded
      (after p (addTx env now m limit tx (env.getObjectHash tx) bsz kb p)) := by
  cases hc : addTx env now m limit tx (env.getObjectHash tx) bsz kb p with
  | ok res =>
    rcases res with ⟨⟨_,_⟩,_⟩
    exact .add hp hQ hc
  | error _ => exact hp

def heldPool (env : Env) : Pool :=
  after (init env 0 none) (offer env (smallSpend 4) false (init env 0 none))

theorem heldPool_session {env : Env} (hQ : Q (smallSpend 4)) : Session env Q ∅ (heldPool env) :=
  after_session .start hQ

def sharedPool : Pool :=
  after (heldPool sampleEnv) (offer sampleEnv keySpend true (heldPool sampleEnv))

theorem inputTables_of_session_sample : sharedPool.spentOutputs = {(5297660827636, 0)} ∧
    sharedPool.spentKeyImages.lookup 7 = some {5} ∧ InputTablesExact sharedPool :=
  ⟨by decide,by decide,
    inputTables_of_session (after_session (heldPool_session rfl) rfl)⟩

theorem lookupExact_iff_sample : LookupExact sampleEnv (heldPool sampleEnv) := by
  apply (lookupExact_iff (heldPool_session (Q := fun _ => True) trivial)).mpr
  decide

/-- The pool takes a transaction with a payment id and has no entry for it. -/
theorem payment_not_indexed : Session payingEnv (Checked payingEnv) ∅ (heldPool payingEnv) ∧
    (heldPool payingEnv).transactions.map (fun d => payingEnv.getPaymentId d.tx.extra) = [some 7] ∧
    (heldPool payingEnv).paymentIdIndex = 0 ∧ ¬ LookupExact payingEnv (heldPool payingEnv) := by
  have hf : (heldPool payingEnv).transactions.map
        (fun d => payingEnv.getPaymentId d.tx.extra) = [some 7] ∧
      (heldPool payingEnv).paymentIdIndex = 0 ∧
      (heldPool payingEnv).paymentIdIndex ≠ ↑((heldPool payingEnv).transactions.filterMap fun d =>
        (payingEnv.getPaymentId d.tx.extra).map fun paymentId => (paymentId, d.id)) := by
    decide
  exact ⟨heldPool_session rfl,hf.1,hf.2.1, fun hex => hf.2.2 hex.payments⟩

end Orbis.ChainPoolSession
