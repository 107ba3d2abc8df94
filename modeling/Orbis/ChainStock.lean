import Orbis.ChainNode

/-!
# The transaction ids of the pool

How the calls between chain and pool change the list of ids that the pool
holds, without any assumption on the state. A transaction that comes back
from a block is stored under its hash, or the call throws; a transaction that
is taken leaves the pool under the id it was asked for; and a block whose
transactions cannot all be taken puts back the ones it took.
-/

set_option autoImplicit false

namespace Orbis.ChainStock

open FaultState ChainTypes ChainSemantic ChainPool ChainNode

variable {p : Pool} {id : Hash} {tx : Transaction} {added : Bool} {n n' : Node}

def poolIds (p : Pool) : Multiset Hash := (p.transactions.map TransactionDetails.id : List Hash)

structure Filed (env : Env) (p : Pool) : Prop where
  hash : ∀ d ∈ p.transactions, d.id = env.getObjectHash d.tx
  once : (poolIds p).Nodup

variable {env : Env} {now : UInt64} {txs : List Transaction}

def idsOf (env : Env) (txs : List Transaction) : Multiset Hash :=
  (txs.map env.getObjectHash : List Hash)

theorem idsOf_cons :
    idsOf env (tx :: txs) = env.getObjectHash tx ::ₘ idsOf env txs := rfl

theorem idsOf_reverse (txs : List Transaction) : idsOf env txs.reverse = idsOf env txs := by
  unfold idsOf
  rw [List.map_reverse]
  exact Multiset.coe_reverse _

theorem mem_poolIds : id ∈ poolIds p ↔ ∃ d ∈ p.transactions, d.id = id := by
  simp [poolIds]

variable {kept : Bool} {p' : Pool}

theorem grown_ids (h : Grown id tx kept added p p') :
    (poolIds p' = poolIds p ∧ (kept = true → added = false)) ∨
      (id ∉ poolIds p ∧ poolIds p' = id ::ₘ poolIds p) := by
  rcases h with ⟨hs,hff⟩ | ⟨hnew,d,rfl,rfl,hm⟩
  · exact .inl ⟨by rw [poolIds, hs, poolIds],hff⟩
  · refine .inr ⟨?_,?_⟩
    · rw [mem_poolIds]
      rintro ⟨e,he,heq⟩
      have hh : haveTx d.id p = true := by
        simp only [haveTx, List.any_eq_true, beq_iff_eq]
        exact ⟨e,he,heq⟩
      rw [hnew] at hh
      cases hh
    · rw [poolIds, hm, List.map_append, ← Multiset.coe_add, add_comm]
      rfl

theorem grown_filed (h : Grown (env.getObjectHash tx) tx kept added p p')
    (hp : Filed env p) : Filed env p' := by
  have hids := grown_ids h
  rcases h with ⟨hs,-⟩ | ⟨-,_,hid,rfl,hm⟩
  · refine ⟨?_,?_⟩
    · rw [hs]
      exact hp.hash
    · rw [poolIds, hs]
      exact hp.once
  · refine ⟨?_,?_⟩
    · rw [hm]
      intro e he
      rcases List.mem_append.mp he with hold | hnew
      · exact hp.hash e hold
      · rw [List.mem_singleton.mp hnew]
        exact hid
    · rcases hids with ⟨hs,-⟩ | ⟨hnew,hc⟩
      · rw [hs]
        exact hp.once
      · rw [hc]
        exact Multiset.nodup_cons.mpr ⟨hnew,hp.once⟩

theorem returnTxs_stock (h : returnTxs env now txs n = .ok ⟨⟩ n') :
    ∃ p, n' = n.setPool p ∧ (Filed env n.pool → Filed env p) ∧
      poolIds p = poolIds n.pool + idsOf env txs := by
  induction txs generalizing n with
  | nil =>
    cases h
    exact ⟨_,rfl,id,(add_zero _).symm⟩
  | cons _ _ ih =>
    obtain ⟨_,hret,hr⟩ := returnTxs_cons h
    obtain ⟨_,p,rfl,hadd⟩ := returnTx_added hret
    have hgr := addTx_transactions env now hadd
    obtain ⟨q,rfl,hf,hids⟩ := ih hr
    refine ⟨q,rfl,fun hp => hf (grown_filed hgr hp),?_⟩
    rcases grown_ids hgr with ⟨-,hff⟩ | ⟨-,hc⟩
    · cases hff rfl
    · rw [hids, idsOf_cons]
      change poolIds p + _ = _
      rw [hc, Multiset.cons_add, Multiset.add_cons]

theorem saveTransactions_stock (h : saveTransactions env now txs n = .ok ⟨⟩ n') :
    ∃ p, n' = n.setPool p ∧ (Filed env n.pool → Filed env p) ∧
      poolIds p = poolIds n.pool + idsOf env txs := by
  obtain ⟨p,hp,hf,hids⟩ := returnTxs_stock h
  exact ⟨p,hp,hf,by rw [hids, idsOf_reverse]⟩

theorem poolIds_takeTx {d : TransactionDetails} (hmem : d ∈ p.transactions) (hp : Filed env p) :
    Filed env (removeTransaction env d p) ∧ env.getObjectHash d.tx = d.id ∧
      poolIds p = d.id ::ₘ poolIds (removeTransaction env d p) := by
  have hf : poolIds (removeTransaction env d p) = (poolIds p).filter (· ≠ d.id) := by
    unfold poolIds
    rw [removeTransaction_transactions, Multiset.filter_coe, List.filter_map]
    congr 2
    apply List.filter_congr
    intro e _
    simp [bne, beq_eq_decide]
  refine ⟨⟨?_,?_⟩,?_,?_⟩
  · intro e he
    rw [removeTransaction_transactions] at he
    exact hp.hash e (List.mem_of_mem_filter he)
  · rw [hf]
    exact hp.once.filter _
  · rw [← hp.hash d hmem]
  · have hin : d.id ∈ poolIds p := mem_poolIds.mpr ⟨d,hmem,rfl⟩
    rw [hf, ← hp.once.erase_eq_filter, Multiset.cons_erase hin]

theorem takeTransaction_stock {taken : Option Transaction}
    (h : takeTransaction env id n = .ok taken n') : (taken = none ∧ n' = n) ∨
    ∃ tx p, taken = some tx ∧ n' = n.setPool p ∧ (Filed env n.pool → Filed env p ∧
      env.getObjectHash tx = id ∧ poolIds n.pool = id ::ₘ poolIds p) := by
  rcases takeTransaction_cases h with ⟨rfl,rfl,-⟩ | ⟨d,hd,rfl,rfl,rfl⟩
  · exact .inl ⟨rfl,rfl⟩
  · exact .inr ⟨d.tx,_,rfl,rfl,poolIds_takeTx hd⟩

theorem loadTransactions_stock {hashes : List Hash} {done : List Transaction}
    {ld : Option (List Transaction)} (h : loadTransactions env now hashes done n = .ok ld n') :
    ∃ p, n' = n.setPool p ∧ (Filed env n.pool → Filed env p ∧
      (ld = none → poolIds p = poolIds n.pool + idsOf env done) ∧
      ∀ txs, ld = some txs → ∃ new, txs = done.reverse ++ new ∧
        new.map env.getObjectHash = hashes ∧ poolIds n.pool = poolIds p + hashes) := by
  induction hashes generalizing done n with
  | nil =>
    cases h
    refine ⟨_,rfl,fun hp => ⟨hp,?_,?_⟩⟩
    · intro hn
      cases hn
    · intro txs hs
      cases hs
      exact ⟨[],by simp,rfl,by simp⟩
  | cons _ _ ih =>
    simp only [loadTransactions, bind_ok] at h
    obtain ⟨_,_,ht,hr⟩ := h
    rcases takeTransaction_stock ht with ⟨rfl,rfl⟩ | ⟨tx,p,rfl,rfl,htkn⟩
    · simp only [bind_ok] at hr
      obtain ⟨_,_,hret,hn⟩ := hr
      obtain ⟨p,rfl,hf,hids⟩ := returnTxs_stock hret
      cases hn
      refine ⟨p,rfl,fun hp => ⟨hf hp,fun _ => hids,?_⟩⟩
      intro txs hs
      cases hs
    · obtain ⟨q,rfl,hq⟩ := ih hr
      refine ⟨q,rfl,fun hp => ?_⟩
      obtain ⟨hpf,hh,hids⟩ := htkn hp
      obtain ⟨hqf,hn,hs⟩ := hq hpf
      refine ⟨hqf,?_,?_⟩
      · intro heq
        rw [hn heq, idsOf_cons, hids, hh]
        change poolIds p + _ = _
        rw [Multiset.add_cons, Multiset.cons_add]
      · intro txs heq
        obtain ⟨new,hnew,hmap,hre⟩ := hs txs heq
        refine ⟨tx :: new,?_,?_,?_⟩
        · rw [hnew]
          simp
        · rw [List.map_cons, hmap, hh]
        · change poolIds p = _ at hre
          rw [hids, hre, ← Multiset.cons_coe, Multiset.add_cons]

end Orbis.ChainStock
