import Orbis.ChainHeld
import Orbis.ChainBuilt

/-!
# The node along its history

A good node has a built main chain, a pool of transactions that passed the
semantic check, and alternative blocks stored under their hashes. Adding and
removing blocks keeps a node good as long as no block is refused for its
size, and moves transactions between chain and pool without losing one.
-/

set_option autoImplicit false

namespace Orbis.ChainHistory

open FaultState ChainTypes ChainSemantic ChainBlock ChainPool ChainPush
open ChainSound ChainBuilt ChainNode ChainHeld

variable (env : Env) (U : Set Transaction) (P : Block → Prop)

variable {ck now : UInt64} {b : Block} {n n' : Node} {txs : List Transaction}

def Countable : Prop :=
  ∀ b, P b → b.baseTransaction ∈ U ∧ b.transactionHashes.length < 2 ^ 16

def Fits (b : Block) : Prop :=
  ∀ txs : List Transaction, (∀ tx ∈ txs, tx ∈ U) →
    txs.map env.getObjectHash = b.transactionHashes →
    checkCumulativeBlockSize env (blockSize b txs) (getBlockHeight b) = true

structure Good (clock : UInt64) (n : Node) : Prop where
  built : Built env U P clock n.main
  pool : PoolKnown env U n.pool
  alternatives : ∀ id entry, n.alternativeChains.lookup id = some entry →
    id = env.getBlockHash entry.bl ∧ P entry.bl

def chainTransactions (blocks : List BlockEntry) : List Transaction :=
  blocks.flatMap fun e => (e.transactions.drop 1).map TransactionEntry.tx

def stock (n : Node) : Set (Hash × Transaction) :=
  held n.pool ∪ hashed env (chainTransactions n.main.blocks)

structure Kept (clock : UInt64) (n n' : Node) : Prop where
  good : Good env U P clock n'
  alternativeChains : n'.alternativeChains = n.alternativeChains
  stock : stock env n' = stock env n

variable {env U P}

theorem Kept.trans {a b c : Node} (h : Kept env U P ck a b) (h' : Kept env U P ck b c)
    : Kept env U P ck a c :=
  ⟨h'.good,h'.alternativeChains.trans h.alternativeChains,h'.stock.trans h.stock⟩

theorem Good.refl (h : Good env U P ck n) : Kept env U P ck n n :=
  ⟨h,rfl,rfl⟩

theorem Good.onAlternatives (hg : Good env U P ck n)
    (hm : n'.main = n.main) (hp : n'.pool = n.pool)
    (halt : ∀ id e, n'.alternativeChains.lookup id = some e →
      id = env.getBlockHash e.bl ∧ P e.bl) : Good env U P ck n' where
  built := hm ▸ hg.built
  pool := hp ▸ hg.pool
  alternatives := halt

theorem Good.mono {Q : Block → Prop} (hg : Good env U P ck n) (hPQ : ∀ b, P b → Q b)
    : Good env U Q ck n where
  built := hg.built.mono hPQ
  pool := hg.pool
  alternatives := fun id e h => ⟨(hg.alternatives id e h).1,hPQ _ (hg.alternatives id e h).2⟩

theorem Good.later (hg : Good env U P ck n) (ht : ck ≤ now) : Good env U P now n :=
  ⟨hg.built.later ht,hg.pool,hg.alternatives⟩

theorem hashed_append (l r : List Transaction) :
    hashed env (l ++ r) = hashed env l ∪ hashed env r := by
  ext x
  simp only [hashed, List.mem_append, Set.mem_union, Set.mem_ofPred_eq]
  tauto

variable {m : MainChain} {p : Pool} {bvc : BlockVerificationContext} {l : List Block}

theorem chainTransactions_accepted {df : UInt64} {em : Int64} :
    chainTransactions (accepted env m b txs df em).blocks = chainTransactions m.blocks ++ txs := by
  rw [accepted_blocks, chainTransactions, chainTransactions, List.flatMap_append]
  congr 1
  have hen := entriesAll_tx env m.blocks.length 1 txs (entered env m b).tables
  simpa [acceptedEntry, finishEntry, fullEntry, addEntries, openEntry, startEntry] using hen

theorem entry_transactions (m : MainChain) (b : Block) (txs : List Transaction) (df : UInt64)
    (em : Int64) : ((acceptedEntry env m b txs df em).transactions.drop 1).map
      TransactionEntry.tx = txs := by
  have hen := entriesAll_tx env m.blocks.length 1 txs (entered env m b).tables
  simpa [acceptedEntry, finishEntry, fullEntry, addEntries, openEntry, startEntry] using hen

theorem offered_of_loaded (hP : Countable U P) (hb : P b)
    (hhsh : b.transactionHashes = txs.map env.getObjectHash)
    (hp : PoolKnown env U p) (hin : ∀ tx ∈ txs, (env.getObjectHash tx, tx) ∈ held p)
    : Offered env U b txs where
  base := (hP b hb).1
  known := fun tx htx => (hp.known _ (hin tx htx)).2.1
  semantic := fun tx htx => (hp.known _ (hin tx htx)).2.2
  hashes := hhsh
  count := by
    have := (hP b hb).2
    rwa [hhsh, List.length_map] at this

theorem not_oversized (hf : Fits env U b) (hoff : Offered env U b txs)
    : ¬ Oversized env now m b txs := by
  rintro ⟨⟨_,hhd⟩,-,-,hs⟩
  have hht : getBlockHeight b = m.blocks.length := by
    simp [getBlockHeight, prevalidate_inputs env hhd.miner]
  have hfit := hf txs hoff.known hoff.hashes.symm
  rw [hht, hs] at hfit
  cases hfit

theorem hashed_reverse (txs : List Transaction) : hashed env txs.reverse = hashed env txs := by
  ext x
  simp [hashed]

theorem held_split (hU : TxInj env U) (hp : PoolKnown env U p)
    (hin : ∀ tx ∈ txs, (env.getObjectHash tx, tx) ∈ held p) :
    {x ∈ held p | x.1 ∉ txs.map env.getObjectHash} ∪ hashed env txs = held p := by
  ext x
  simp only [Set.mem_union, Set.mem_ofPred_eq, hashed]
  constructor
  · rintro (⟨hx,-⟩ | ⟨hx,heq⟩)
    · exact hx
    · rw [show x = (env.getObjectHash x.2, x.2) from Prod.ext heq rfl]
      exact hin x.2 hx
  · intro hx
    by_cases hmem : x.1 ∈ txs.map env.getObjectHash
    · obtain ⟨tx,htx,heq⟩ := List.mem_map.mp hmem
      have hkx := hp.known x hx
      have hs : tx = x.2 := hU (hp.known _ (hin tx htx)).2.1 hkx.2.1 (heq.trans hkx.1)
      exact .inr ⟨hs ▸ htx,hkx.1⟩
    · exact .inl ⟨hx,hmem⟩

theorem saveTransactions_ok (hpo : PoolKnown env U n.pool)
    (htxs : ∀ tx ∈ txs, Known env U (env.getObjectHash tx, tx))
    (h : saveTransactions env now txs n = .ok ⟨⟩ n') :
    ∃ p, n' = n.setPool p ∧ PoolKnown env U p ∧ held p = held n.pool ∪ hashed env txs := by
  obtain ⟨p,hn,hkn,hp⟩ := returnTxs_ok hpo (fun tx htx => htxs tx (List.mem_reverse.mp htx)) h
  exact ⟨p,hn,hkn,by rw [hp, hashed_reverse]⟩

theorem known_of_offered (h : Offered env U b txs) :
    ∀ tx ∈ txs, Known env U (env.getObjectHash tx, tx) :=
  fun tx htx => ⟨rfl,h.known tx htx,h.semantic tx htx⟩

theorem pushPoolBlock_kept (hU : TxInj env U) (hP : Countable U P) (hti : now ≤ ck)
    (hg : Good env U P ck n) (hb : P b) {added : Bool}
    (h : pushPoolBlock env now b n = .ok (added, bvc) n') (hf : added = false → Fits env U b) :
    Kept env U P ck n n' ∧ (added = false → n'.main = n.main) ∧
    (added = true → bvc = .added ∧ (∀ x ∈ held n'.pool, x.1 ∉ b.transactionHashes) ∧
      ∃ txs df em, Offered env U b txs ∧ Acceptance env now n.main b txs df em ∧
        n'.main = accepted env n.main b txs df em) := by
  simp only [pushPoolBlock, bind_ok] at h
  obtain ⟨ld,u,hlo,hr⟩ := h
  obtain ⟨p,rfl,hpk,hp⟩ := loadTransactions_ok hU hg.pool (by simp) hlo
  cases ld with
  | none =>
    cases hr
    have hh : held p = held n.pool := by
      rw [hp]
      ext x
      simp [hashed]
    refine ⟨⟨⟨hg.built,hpk,hg.alternatives⟩,rfl,?_⟩,fun _ => rfl, fun ht => Bool.noConfusion ht⟩
    simp only [stock, Node.setPool, hh]
  | some txs =>
    obtain ⟨_,hnew,hhsh,hin,hout⟩ := hp
    rw [List.reverse_nil, List.nil_append] at hnew
    subst hnew
    have hoff := offered_of_loaded hP hb hhsh hg.pool hin
    have hspl := held_split hU hg.pool hin
    rw [← hhsh, ← hout] at hspl
    simp only [bind_ok] at hr
    obtain ⟨⟨added',_⟩,u,hm,hr⟩ := hr
    obtain ⟨_,hpu,rfl⟩ := (within_ok _ _ _ _ _ _).mp hm
    have hf' : added' = false → ¬ Oversized env now n.main b txs := by
      intro hff
      subst hff
      simp only [Bool.false_eq_true, if_false, bind_ok] at hr
      obtain ⟨_,v,-,hl⟩ := hr
      cases hl
      exact not_oversized (hf rfl) hoff
    obtain ⟨hblt,hs⟩ := hg.built.pushBlock hU hti hb hoff hpu hf'
    cases added' with
    | true =>
      simp only [if_true] at hr
      rw [modify_bind] at hr
      cases hr
      obtain ⟨hbvc,df,em,hacc,rfl⟩ := pushBlock_true hU (hg.built.sound hU) hoff hpu
      refine ⟨⟨⟨hblt,hpk,hg.alternatives⟩,rfl,?_⟩, fun hff => Bool.noConfusion hff,
        fun _ => ⟨hbvc,?_,txs,df,em,hoff,hacc,rfl⟩⟩
      swap
      · intro x hx
        change x ∈ held p at hx
        rw [hout] at hx
        exact hx.2
      change held p ∪ hashed env (chainTransactions
        (accepted env n.main b txs df em).blocks) = stock env n
      rw [chainTransactions_accepted, hashed_append, stock, ← hspl, Set.union_assoc,
        Set.union_comm (hashed env txs)]
    | false =>
      simp only [Bool.false_eq_true, if_false, bind_ok] at hr
      obtain ⟨_,v,hsa,hl⟩ := hr
      obtain ⟨q,rfl,hqk,hq⟩ := saveTransactions_ok hpk (known_of_offered hoff) hsa
      cases hl
      obtain rfl := hs rfl
      have hh : held q = held n.pool := hq.trans hspl
      refine ⟨⟨⟨hblt,hqk,hg.alternatives⟩,rfl,?_⟩, fun _ => rfl,fun ht => Bool.noConfusion ht⟩
      change held q ∪ _ = _
      rw [hh]
      rfl

def Extends (env : Env) (U : Set Transaction) (P : Block → Prop) (clock : UInt64)
    (m : MainChain) (b : Block) (m' : MainChain) : Prop :=
  ∃ now txs difficulty emissionChange, now ≤ clock ∧ P b ∧ Offered env U b txs ∧
    Acceptance env now m b txs difficulty emissionChange ∧
    m' = accepted env m b txs difficulty emissionChange

inductive Raised (env : Env) (U : Set Transaction) (P : Block → Prop) (clock : UInt64) :
    MainChain → List Block → MainChain → Prop
  | nil {m : MainChain} : Raised env U P clock m [] m
  | cons {m m' top : MainChain} {b : Block} {rest : List Block}
      (step : Extends env U P clock m b m') (above : Raised env U P clock m' rest top) :
      Raised env U P clock m (b :: rest) top

theorem Raised.concat {m' top : MainChain} (h : Raised env U P ck m l m')
    (hs : Extends env U P ck m' b top) : Raised env U P ck m (l ++ [b]) top := by
  induction h with
  | nil => exact .cons hs .nil
  | cons step _ ih => exact .cons step (ih hs)

theorem popBlock_kept (hU : TxInj env U) (hg : Good env U P ck n) {blk : BlockEntry}
    (hl : n.main.blocks.getLast? = some blk)
    (h : popBlock env now (env.getBlockHash blk.bl) n = .ok ⟨⟩ n') :
    Kept env U P ck n n' ∧ Extends env U P ck n'.main blk.bl n.main := by
  obtain ⟨lower,time,txs,df,em,hlw,ht,hb,hoff,hacc,hent,hma⟩ := hg.built.last hl
  have htxs : (blk.transactions.drop 1).map TransactionEntry.tx = txs := by
    rw [hent]
    exact entry_transactions lower blk.bl txs df em
  have hpop := popStoredBlock_accepted hU (hlw.sound hU) hoff hacc
  unfold popBlock at h
  rw [get_bind] at h
  simp only [hl, htxs, bind_ok] at h
  obtain ⟨_,_,hs,hsto⟩ := h
  obtain ⟨p,rfl,hpk,hp⟩ := saveTransactions_ok hg.pool (known_of_offered hoff) hs
  obtain ⟨_,hm,rfl⟩ := (within_ok _ _ _ _ _ _).mp hsto
  rw [Node.setPool, hma] at hm
  rcases hpop with hpop | ⟨-,_,herr⟩
  swap
  · rw [herr] at hm
    cases hm
  rw [hpop] at hm
  cases hm
  have hst : held p ∪ hashed env (chainTransactions lower.blocks) = stock env n := by
    rw [stock, hma, chainTransactions_accepted, hashed_append, hp, Set.union_assoc,
      Set.union_comm (hashed env txs)]
  exact ⟨⟨⟨hlw,hpk,hg.alternatives⟩,rfl,hst⟩, ⟨time,txs,df,em,ht,hb,hoff,hacc,hma⟩⟩

theorem disconnect_kept (hU : TxInj env U) {cnt : ℕ} {rmd list : List Block}
    (hg : Good env U P ck n) (h : disconnect env now cnt rmd n = .ok list n') :
    Kept env U P ck n n' ∧ ∃ popped, list = popped ++ rmd ∧ popped.length = cnt ∧
      Raised env U P ck n'.main popped n.main := by
  induction cnt generalizing rmd n with
  | zero =>
    cases h
    exact ⟨hg.refl,[],rfl,rfl,.nil⟩
  | succ _ ih =>
    simp only [disconnect] at h
    rw [get_bind] at h
    cases hl : n.main.blocks.getLast? with
    | none =>
      simp only [hl] at h
      cases h
    | some blk =>
      simp only [hl, bind_ok] at h
      obtain ⟨_,_,hpop,hr⟩ := h
      obtain ⟨hk,hs⟩ := popBlock_kept hU hg hl hpop
      obtain ⟨hk',popped,rfl,hlen,hrsd⟩ := ih hk.good hr
      exact ⟨hk.trans hk',popped ++ [blk.bl],by simp,by simp [hlen], hrsd.concat hs⟩

theorem pushPoolBlock_extends (hU : TxInj env U) (hP : Countable U P) (ht : now ≤ ck)
    (hg : Good env U P ck n) (hb : P b) (h : pushPoolBlock env now b n = .ok (true, bvc) n') :
    Kept env U P ck n n' ∧ Extends env U P ck n.main b n'.main := by
  obtain ⟨hk,-,htr⟩ := pushPoolBlock_kept hU hP ht hg hb h (fun hff => Bool.noConfusion hff)
  obtain ⟨-,-,txs,df,em,hoff,hacc,hm⟩ := htr rfl
  exact ⟨hk,now,txs,df,em,ht,hb,hoff,hacc,hm⟩

theorem reconnect_kept (hU : TxInj env U) (hP : Countable U P) (ht : now ≤ ck) {suc : Bool}
    (hg : Good env U P ck n) (hl : ∀ b ∈ l, P b) (hf : suc = false → ∀ b, P b → Fits env U b)
    (h : reconnect env now l n = .ok suc n') :
    Kept env U P ck n n' ∧ (suc = true → Raised env U P ck n.main l n'.main) := by
  induction l generalizing n with
  | nil =>
    cases h
    exact ⟨hg.refl,fun _ => .nil⟩
  | cons b _ ih =>
    simp only [reconnect, bind_ok] at h
    obtain ⟨⟨added,bvc⟩,_,hp,hr⟩ := h
    have hb := hl b (by simp)
    by_cases hc : (added && bvc.addedToMainChain) = true
    · simp only [hc, Bool.not_true, Bool.false_eq_true, if_false] at hr
      simp only [Bool.and_eq_true] at hc
      obtain ⟨rfl,-⟩ := hc
      obtain ⟨hk,hst⟩ := pushPoolBlock_extends hU hP ht hg hb hp
      obtain ⟨hk',hrsd⟩ := ih hk.good (fun o hoth => hl o (List.mem_cons_of_mem _ hoth)) hr
      exact ⟨hk.trans hk',fun hs => .cons hst (hrsd hs)⟩
    · simp only [hc, Bool.not_false, if_true] at hr
      cases hr
      exact ⟨(pushPoolBlock_kept hU hP ht hg hb hp
        (fun _ => hf rfl b hb)).1,fun hs => Bool.noConfusion hs⟩

end Orbis.ChainHistory
