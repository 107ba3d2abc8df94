import Orbis.ChainPoolIndex
import Orbis.ChainNode

/-!
# The transactions held by the pool

For the chain the pool is a set of transactions under their hashes. Taking a
transaction removes it from the set, returning one puts it in, and a block
whose transactions cannot all be found leaves the set as it was. Neither
touches anything but the pool.
-/

set_option autoImplicit false

namespace Orbis.ChainHeld

open FaultState ChainTypes ChainSemantic ChainBlock ChainPool ChainPoolIndex ChainNode

variable {p p' : Pool} {id : Hash} {tx : Transaction} {added : Bool} {now : UInt64} {n n' : Node}

def held (p : Pool) : Set (Hash × Transaction) :=
  {x | ∃ d ∈ p.transactions, x = (d.id, d.tx)}

variable (env : Env) (U : Set Transaction)

def Known (x : Hash × Transaction) : Prop :=
  x.1 = env.getObjectHash x.2 ∧ x.2 ∈ U ∧
    checkTxSemantic env.ops x.2.toTransactionPrefix = true

structure PoolKnown (p : Pool) : Prop where
  known : ∀ x ∈ held p, Known env U x
  tidy : Tidy p

def hashed (txs : List Transaction) : Set (Hash × Transaction) :=
  {x | x.2 ∈ txs ∧ x.1 = env.getObjectHash x.2}

variable {env U}

theorem held_append {d : TransactionDetails} (h : p'.transactions = p.transactions ++ [d])
    : held p' = insert (d.id, d.tx) (held p) := by
  ext x
  simp only [held, h, List.mem_append, List.mem_singleton, Set.mem_ofPred_eq, Set.mem_insert_iff]
  constructor
  · rintro ⟨e,he | rfl,hx⟩
    · exact .inr ⟨e,he,hx⟩
    · exact .inl hx
  · rintro (hx | ⟨e,he,hx⟩)
    · exact ⟨d,.inr rfl,hx⟩
    · exact ⟨e,.inl he,hx⟩

theorem held_congr (h : p'.transactions = p.transactions) : held p' = held p := by
  simp only [held, h]

variable {kb : Bool}

theorem held_grown (h : Grown id tx kb added p p') :
    held p' = held p ∨ held p' = insert (id, tx) (held p) := by
  rcases h with ⟨hs,-⟩ | ⟨-,_,rfl,rfl,hm⟩
  · exact .inl (held_congr hs)
  · exact .inr (held_append hm)

theorem held_of_kept (h : Grown id tx true true p p') : held p' = insert (id, tx) (held p) := by
  rcases h with ⟨-,hff⟩ | ⟨-,_,rfl,rfl,hm⟩
  · exact Bool.noConfusion (hff rfl)
  · exact held_append hm

theorem Known.images (h : Known env U (id, tx)) : (keyImages tx.inputs).Nodup :=
  ((checkTxSemantic_iff env.ops _).mp h.2.2).images

theorem PoolKnown.images (h : PoolKnown env U p) :
    ∀ d ∈ p.transactions, (keyImages d.tx.inputs).Nodup :=
  fun d hd => (h.known (d.id, d.tx) ⟨d,hd,rfl⟩).images

theorem addTx_known {m : MainChain} {limit : UInt64}
    {bsz : UInt64} {tvc : TxVerificationContext}
    (hp : PoolKnown env U p) (htx : Known env U (env.getObjectHash tx, tx))
    (h : addTx env now m limit tx (env.getObjectHash tx) bsz kb p =
      .ok ((added, tvc), p')) : PoolKnown env U p' where
  known := by
    intro x hx
    rcases held_grown (addTx_transactions env now h) with hs | hm
    · exact hp.known x (hs ▸ hx)
    · rw [hm] at hx
      rcases hx with rfl | hold
      · exact htx
      · exact hp.known x hold
  tidy := addTx_tidy hp.tidy htx.images h

theorem returnTx_ok (hp : PoolKnown env U n.pool) (htx : Known env U (env.getObjectHash tx, tx))
    (h : returnTx env now tx n = .ok added n') : ∃ p, n' = n.setPool p ∧ PoolKnown env U p ∧
      Grown (env.getObjectHash tx) tx true added n.pool p := by
  obtain ⟨_,p,rfl,hadd⟩ := returnTx_added h
  exact ⟨p,rfl,addTx_known hp htx hadd,addTx_transactions env now hadd⟩

theorem returnTxs_ok {txs : List Transaction} (hpo : PoolKnown env U n.pool)
    (htxs : ∀ tx ∈ txs, Known env U (env.getObjectHash tx, tx))
    (h : returnTxs env now txs n = .ok ⟨⟩ n') :
    ∃ p, n' = n.setPool p ∧ PoolKnown env U p ∧ held p = held n.pool ∪ hashed env txs := by
  induction txs generalizing n with
  | nil =>
    cases h
    refine ⟨_,rfl,hpo,?_⟩
    ext x
    simp [hashed]
  | cons tx _ ih =>
    obtain ⟨_,hret,hr⟩ := returnTxs_cons h
    obtain ⟨p,rfl,hp,hgr⟩ := returnTx_ok hpo (htxs tx (by simp)) hret
    have hh := held_of_kept hgr
    obtain ⟨q,rfl,hqk,hq⟩ := ih hp (fun o hoth => htxs o (List.mem_cons_of_mem _ hoth)) hr
    refine ⟨q,rfl,hqk,?_⟩
    rw [hq]
    ext x
    simp only [Node.setPool, hh, hashed, Set.mem_union, Set.mem_insert_iff, Set.mem_ofPred_eq,
      List.mem_cons]
    constructor
    · rintro ((rfl | hx) | ⟨hx,heq⟩)
      · exact .inr ⟨.inl rfl,rfl⟩
      · exact .inl hx
      · exact .inr ⟨.inr hx,heq⟩
    · rintro (hx | ⟨hx | hx,heq⟩)
      · exact .inl (.inr hx)
      · exact .inl (.inl (Prod.ext (heq.trans (by rw [hx])) hx))
      · exact .inr ⟨hx,heq⟩

theorem takeTransaction_ok {taken : Option Transaction} (hp : PoolKnown env U n.pool)
    (h : takeTransaction env id n = .ok taken n') : (taken = none ∧ n' = n) ∨
    (∃ tx p, taken = some tx ∧ n' = n.setPool p ∧ PoolKnown env U p ∧ (id, tx) ∈ held n.pool ∧
      held p = {x ∈ held n.pool | x.1 ≠ id}) := by
  rcases takeTransaction_cases h with ⟨rfl,rfl,-⟩ | ⟨d,hd,rfl,rfl,rfl⟩
  · exact .inl ⟨rfl,rfl⟩
  · have hh : held (removeTransaction env d n.pool) = {x ∈ held n.pool | x.1 ≠ d.id} := by
      ext x
      simp only [held, removeTransaction_transactions, List.mem_filter, bne_iff_ne,
        Set.mem_ofPred_eq]
      constructor
      · rintro ⟨e,⟨he,hne⟩,rfl⟩
        exact ⟨⟨e,he,rfl⟩,hne⟩
      · rintro ⟨⟨e,he,rfl⟩,hne⟩
        exact ⟨e,⟨he,hne⟩,rfl⟩
    have ht := @removeTransaction_tidy _ env _ hp.tidy hd (hp.images d hd)
    refine .inr ⟨d.tx,_,rfl,rfl,⟨?_,ht⟩,⟨d,hd,rfl⟩,hh⟩
    intro x hx
    rw [hh] at hx
    exact hp.known x hx.1

theorem loadTransactions_ok (hU : TxInj env U) {hashes : List Hash}
    {done : List Transaction} {ld : Option (List Transaction)} (hpo : PoolKnown env U n.pool)
    (hd : ∀ tx ∈ done, Known env U (env.getObjectHash tx, tx))
    (h : loadTransactions env now hashes done n = .ok ld n') :
    ∃ p, n' = n.setPool p ∧ PoolKnown env U p ∧
      match ld with
      | none => held p = held n.pool ∪ hashed env done
      | some txs => ∃ new, txs = done.reverse ++ new ∧
        hashes = new.map env.getObjectHash ∧
        (∀ tx ∈ new, (env.getObjectHash tx, tx) ∈ held n.pool) ∧
        held p = {x ∈ held n.pool | x.1 ∉ hashes} := by
  induction hashes generalizing done n with
  | nil =>
    cases h
    exact ⟨_,rfl,hpo,[],by simp⟩
  | cons id _ ih =>
    simp only [loadTransactions, bind_ok] at h
    obtain ⟨_,_,ht,hr⟩ := h
    rcases takeTransaction_ok hpo ht with ⟨rfl,rfl⟩ | ⟨tx,p,rfl,rfl,hpo',hmem,hh⟩
    · simp only [bind_ok] at hr
      obtain ⟨_,_,hret,hn⟩ := hr
      obtain ⟨p,rfl,hpk,hp⟩ := returnTxs_ok hpo hd hret
      cases hn
      exact ⟨p,rfl,hpk,hp⟩
    · have hkn := hpo.known _ hmem
      have hid : id = env.getObjectHash tx := hkn.1
      have hd' : ∀ o ∈ tx :: done, Known env U (env.getObjectHash o, o) := by
        intro o hoth
        rcases List.mem_cons.mp hoth with rfl | hold
        · exact ⟨rfl,hkn.2⟩
        · exact hd o hold
      obtain ⟨q,rfl,hqk,hq⟩ := ih hpo' hd' hr
      refine ⟨q,rfl,hqk,?_⟩
      cases ld with
      | none =>
        simp only [Node.setPool] at hq ⊢
        rw [hq, hh]
        ext x
        simp only [hashed, Set.mem_union, Set.mem_ofPred_eq, List.mem_cons]
        constructor
        · rintro (⟨hx,-⟩ | ⟨rfl | hx,heq⟩)
          · exact .inl hx
          · left
            rwa [show x = (id, x.2) from Prod.ext (heq.trans hid.symm) rfl]
          · exact .inr ⟨hx,heq⟩
        · rintro (hx | ⟨hx,heq⟩)
          · by_cases hne : x.1 = id
            · have hkx := hpo.known x hx
              have hs : x.2 = tx := hU hkx.2.1 hkn.2.1 (hkx.1.symm.trans (hne.trans hid))
              exact .inr ⟨.inl hs,hkx.1⟩
            · exact .inl ⟨hx,hne⟩
          · exact .inr ⟨.inr hx,heq⟩
      | some _ =>
        obtain ⟨new,htxs,hhsh,hin,hout⟩ := hq
        simp only [Node.setPool] at hin hout
        refine ⟨tx :: new,?_,?_,?_,?_⟩
        · rw [htxs]
          simp
        · rw [List.map_cons, ← hhsh, ← hid]
        · intro o hoth
          rcases List.mem_cons.mp hoth with rfl | hnew
          · rwa [← hid]
          · have := hin o hnew
            rw [hh] at this
            exact this.1
        · rw [hout, hh]
          ext x
          simp only [Set.mem_ofPred_eq, List.mem_cons, not_or, and_assoc]

end Orbis.ChainHeld
