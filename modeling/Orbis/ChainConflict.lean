import Orbis.ChainOutcome
import Orbis.ChainPoolSession

/-!
# What a refused block does to the pool

The transactions of a block are taken out of the pool before the block is
checked, and when it is refused they are put back as transactions that come
from a block. They keep their key images that way, but their multisignature
outputs are free afterwards, and the pool accepts a transaction that it would
have rejected before. They also count as just received and may stay for a week
instead of a day. Short of that, a refused block without such an output cannot
be noticed in the conflict tests of later calls.
-/

set_option autoImplicit false

namespace Orbis.ChainConflict

open FaultState ChainTypes ChainSemantic ChainBlock ChainPool ChainPoolInputs
open ChainPoolSession ChainNode ChainOutcome ChainRun ChainRestore ChainLedger

variable {d : TransactionDetails} {tx : Transaction} {n n' : Node}

/-- The hashes of a block up to the first one that the pool does not have, or
no longer has. -/
def loadable : Finset Hash → List Hash → List Hash
  | _, [] => []
  | available, id :: rest =>
    if id ∈ available then id :: loadable (available.erase id) rest else []

def card (d : TransactionDetails) : Hash × Transaction × Bool × UInt64 :=
  (d.id, d.tx, d.keptByBlock, d.receiveTime)

def flagged (now : UInt64) (T : List Hash) (d : TransactionDetails) :
    Hash × Transaction × Bool × UInt64 :=
  (d.id, d.tx, d.keptByBlock || d.id ∈ T, if d.id ∈ T then now else d.receiveTime)

variable {env : Env} {now : UInt64}

/-- `q` is the pool `p` without the transactions `out`, in which those with an
id in `T` count as coming from a block, received at the time `now`. -/
structure Lent (env : Env) (now : UInt64) (T : List Hash) (out : List Transaction) (p q : Pool) :
    Prop where
  cards : ∀ x, x ∈ q.transactions.map card ↔
    ∃ d ∈ p.transactions, d.id ∉ out.map env.getObjectHash ∧ x = flagged now T d
  owned : ∀ tx ∈ out, ∃ d ∈ p.transactions, d.tx = tx ∧ d.id ∈ T
  distinct : (out.map env.getObjectHash).Nodup
  deleted : records q = records p

theorem lent_self (p : Pool) : Lent env now [] [] p p where
  cards := by
    intro x
    simp [card, flagged, eq_comm]
  owned := by simp
  distinct := List.nodup_nil
  deleted := rfl

variable {T : List Hash} {out : List Transaction}

section Lending

variable {p q : Pool}

theorem flagged_cons {id : Hash} (h : d.id ≠ id) : flagged now (id :: T) d = flagged now T d := by
  simp [flagged, h]

theorem Lent.take (h : Lent env now T out p q)
    (hnm : ∀ d ∈ p.transactions, d.id = env.getObjectHash d.tx) (hd : d ∈ q.transactions) :
    Lent env now (d.id :: T) (d.tx :: out) p (removeTransaction env d q) := by
  obtain ⟨owner,ho,hout,hc⟩ := (h.cards (card d)).mp (List.mem_map_of_mem hd)
  have hid : d.id = owner.id := congrArg Prod.fst hc
  have htx : d.tx = owner.tx := congrArg (fun x => x.2.1) hc
  have hh : env.getObjectHash d.tx = d.id := by rw [htx, hid, hnm owner ho]
  refine ⟨?_,?_,?_,(removeTransaction_records d q).trans h.deleted⟩
  · intro x
    have hfi : x ∈ (removeTransaction env d q).transactions.map card ↔
        x ∈ q.transactions.map card ∧ x.1 ≠ d.id := by
      rw [removeTransaction_transactions]
      simp only [List.mem_map, List.mem_filter, bne_iff_ne]
      constructor
      · rintro ⟨e,⟨he,hne⟩,rfl⟩
        exact ⟨⟨e,he,rfl⟩,hne⟩
      · rintro ⟨⟨e,he,rfl⟩,hne⟩
        exact ⟨e,⟨he,hne⟩,rfl⟩
    rw [hfi, h.cards, List.map_cons, hh]
    constructor
    · rintro ⟨⟨e,he,hf,rfl⟩,hne⟩
      refine ⟨e,he,?_,(flagged_cons hne).symm⟩
      exact fun hmem => (List.mem_cons.mp hmem).elim hne hf
    · rintro ⟨e,he,hf,rfl⟩
      have hne : e.id ≠ d.id := fun heq => hf (heq ▸ List.mem_cons_self)
      refine ⟨⟨e,he,fun hmem => hf (List.mem_cons_of_mem _ hmem),flagged_cons hne⟩,hne⟩
  · intro tx hmem
    rcases List.mem_cons.mp hmem with rfl | hold
    · exact ⟨owner,ho,htx.symm,hid ▸ List.mem_cons_self⟩
    · obtain ⟨e,he,heq,hT⟩ := h.owned tx hold
      exact ⟨e,he,heq,List.mem_cons_of_mem _ hT⟩
  · rw [List.map_cons, List.nodup_cons, hh]
    refine ⟨?_,h.distinct⟩
    rw [hid]
    exact hout

theorem Lent.giveBack {q' : Pool} (h : Lent env now T (tx :: out) p q)
    (hd : (p.transactions.map TransactionDetails.id).Nodup)
    (hnm : ∀ d ∈ p.transactions, d.id = env.getObjectHash d.tx) (hsto : Stored d q q')
    (hid : d.id = env.getObjectHash tx) (htx : d.tx = tx) (hk : d.keptByBlock = true)
    (ht : d.receiveTime = now) : Lent env now T out p q' := by
  obtain ⟨owner,ho,how,hT⟩ := h.owned tx List.mem_cons_self
  have hh : owner.id = env.getObjectHash tx := by rw [hnm owner ho, how]
  have hc : card d = flagged now T owner := by
    have hids : d.id = owner.id := hid.trans hh.symm
    simp [card, flagged, hids, htx.trans how.symm, hk, ht, hT]
  have hnew := h.distinct
  rw [List.map_cons, List.nodup_cons] at hnew
  refine ⟨?_,fun o hoth => h.owned o (List.mem_cons_of_mem _ hoth),hnew.2,
    hsto.records.trans h.deleted⟩
  intro x
  rw [hsto.transactions, List.map_append, List.map_singleton, List.mem_append,
    List.mem_singleton, h.cards, List.map_cons]
  constructor
  · rintro (⟨e,he,hf,hx⟩ | hx)
    · exact ⟨e,he,fun hmem => hf (List.mem_cons_of_mem _ hmem),hx⟩
    · refine ⟨owner,ho,?_,hx.trans hc⟩
      rw [hh]
      exact hnew.1
  · rintro ⟨e,he,hf,hx⟩
    by_cases heq : e.id = env.getObjectHash tx
    · have hs := List.inj_on_of_nodup_map hd he ho (heq.trans hh.symm)
      exact .inr (hx.trans (hs ▸ hc.symm))
    · exact .inl ⟨e,he,fun hmem => (List.mem_cons.mp hmem).elim heq hf,hx⟩

end Lending

structure Ready (env : Env) (p : Pool) : Prop where
  upright : Upright env p
  named : ∀ d ∈ p.transactions, d.id = env.getObjectHash d.tx

theorem ready_of_session {ld : Finset Hash} {p : Pool} (h : Session env (Checked env) ld p)
    : Ready env p :=
  ⟨h.upright,h.looked.1.named⟩

theorem Ready.checked_of_owned {p q : Pool} (hp : Ready env p) (h : Lent env now T out p q)
    (htx : tx ∈ out) : Checked env tx := by
  obtain ⟨d,hd,rfl,-⟩ := h.owned tx htx
  exact hp.upright.checked d hd

theorem returnTx_stored (h : returnTx env now tx n = .ok true n') :
    ∃ p d, n' = n.setPool p ∧ Stored d n.pool p ∧ d.id = env.getObjectHash tx ∧ d.tx = tx ∧
      d.keptByBlock = true ∧ d.receiveTime = now ∧
      (Upright env n.pool → Checked env tx → Upright env p) := by
  obtain ⟨_,p,rfl,hadd⟩ := returnTx_added h
  rcases addTx_cases hadd with hs | ⟨d,hsto,hid,htx,hk,ht,-⟩
  · -- a transaction from a block is accepted only by storing it
    exfalso
    rcases addTx_transactions env now hadd with ⟨-,hff⟩ | ⟨-,d,-,-,hm⟩
    · cases hff rfl
    · rw [hs] at hm
      simp at hm
  · exact ⟨p,d,rfl,hsto,hid,htx,hk,ht,fun hp hc => addTx_upright hp hc hadd⟩

theorem returnTxs_lent {p : Pool} (hp : Ready env p) (h : Lent env now T out p n.pool)
    (hpo : Upright env n.pool) (hc : returnTxs env now out n = .ok ⟨⟩ n') :
    Lent env now T [] p n'.pool ∧ Upright env n'.pool := by
  induction out generalizing n with
  | nil =>
    cases hc
    exact ⟨h,hpo⟩
  | cons _ _ ih =>
    obtain ⟨_,hret,hr⟩ := returnTxs_cons hc
    obtain ⟨q,_,rfl,hsto,hid,htx,hk,ht,hupr⟩ := returnTx_stored hret
    have hb := h.giveBack hp.upright.consistent.distinct hp.named hsto hid htx hk ht
    have hch := hp.checked_of_owned h List.mem_cons_self
    exact ih (n := n.setPool q) hb (hupr hpo hch) hr

theorem loadTransactions_lent {p : Pool} (hp : Ready env p) {ids' : List Hash}
    {ld : Option (List Transaction)} (h : Lent env now T out p n.pool) (hpo : Upright env n.pool)
    (hc : loadTransactions env now ids' out n = .ok ld n') :
    ∃ T', (∀ id, id ∈ T' ↔ id ∈ T ∨ id ∈ loadable (ids n.pool) ids') ∧ Upright env n'.pool ∧
      match ld with
      | none => Lent env now T' [] p n'.pool
      | some txs => Lent env now T' txs.reverse p n'.pool := by
  induction ids' generalizing T out n with
  | nil =>
    cases hc
    refine ⟨T,by simp [loadable],hpo,?_⟩
    dsimp only
    rw [List.reverse_reverse]
    exact h
  | cons id _ ih =>
    simp only [loadTransactions, bind_ok] at hc
    obtain ⟨_,u,ht,hr⟩ := hc
    rcases takeTransaction_cases ht with ⟨rfl,rfl,hn⟩ | ⟨d,hd,rfl,rfl,rfl⟩
    · simp only [bind_ok] at hr
      obtain ⟨⟨⟩,_,hret,hend⟩ := hr
      cases hend
      have hm : id ∉ ids u.pool := by
        intro hmem
        obtain ⟨d,hd,hid⟩ := List.mem_map.mp (List.mem_toFinset.mp hmem)
        exact hn d hd hid
      obtain ⟨hb,hupr⟩ := returnTxs_lent hp h hpo hret
      exact ⟨T,by simp [loadable, hm],hupr,hb⟩
    · have hpr : d.id ∈ ids n.pool := List.mem_toFinset.mpr (List.mem_map_of_mem hd)
      obtain ⟨T',hT',hupr,hend⟩ := ih (h.take hp.named hd) (removeTransaction_upright hpo hd) hr
      refine ⟨T',?_,hupr,hend⟩
      intro o
      have hera : ids (n.setPool (removeTransaction env d n.pool)).pool =
          (ids n.pool).erase d.id := ids_removeTransaction d n.pool
      rw [hT', hera, loadable, if_pos hpr, List.mem_cons, List.mem_cons]
      tauto

theorem pushPoolBlock_lent {b : Block} {bvc : BlockVerificationContext} (hp : Ready env n.pool)
    (hc : pushPoolBlock env now b n = .ok (false, bvc) n') :
    ∃ T, (∀ id, id ∈ T ↔ id ∈ loadable (ids n.pool) b.transactionHashes) ∧
      Lent env now T [] n.pool n'.pool ∧ Upright env n'.pool := by
  rcases pushPoolBlock_cases hc with ⟨-,hl⟩ | ⟨_,u,m,hl,-,⟨hff,-⟩ | ⟨-,hs⟩⟩
  · obtain ⟨T,hT,hupr,hend⟩ := loadTransactions_lent hp (lent_self _) hp.upright hl
    exact ⟨T,by simpa using hT,hend,hupr⟩
  · cases hff
  · obtain ⟨T,hT,hupr,hend⟩ := loadTransactions_lent hp (lent_self _) hp.upright hl
    obtain ⟨hb,ha⟩ := returnTxs_lent hp (n := u.setMain m) hend hupr hs
    exact ⟨T,by simpa using hT,hb,ha⟩

theorem probe_signed (place : UInt64 × UInt32) : ([[]] : List (List Signature)).map List.length =
    ([.multisignature place.1 0 place.2] : List TransactionInput).map getSignaturesCount := rfl

def probe (place : UInt64 × UInt32) : Transaction where
  version := 1
  unlockTime := 0
  inputs := [.multisignature place.1 0 place.2]
  outputs := []
  extra := []
  signatures := [[]]
  signed := probe_signed place

/-! Two pools go through the same later calls, one in which the block was
never offered and one in which it was refused. -/

/-- What has to be equal of a transaction in both pools: of one with an id in
`T` only the id and the transaction. -/
def trace (T : List Hash) (d : TransactionDetails) : Hash × Transaction × Option (Bool × UInt64) :=
  (d.id, d.tx, if d.id ∈ T then none else some (d.keptByBlock, d.receiveTime))

def traces (T : List Hash) (p : Pool) : Set (Hash × Transaction × Option (Bool × UInt64)) :=
  {x | ∃ d ∈ p.transactions, trace T d = x}

structure Twin (env : Env) (T : List Hash) (p q : Pool) : Prop where
  same : traces T p = traces T q
  deleted : ∀ record, record ∈ records p ↔ record ∈ records q
  first : Upright env p
  second : Upright env q
  silent : ∀ d, d ∈ p.transactions ∨ d ∈ q.transactions → d.id ∈ T → taken d = []

section Twins

variable {p q p' q' : Pool} {id : Hash} {m : MainChain} {limit bsz : UInt64} {kb : Bool}

theorem Twin.symm (h : Twin env T p q) : Twin env T q p :=
  ⟨h.same.symm,fun record => (h.deleted record).symm,h.second,h.first,
    fun d hd => h.silent d hd.symm⟩

theorem Twin.partner (h : Twin env T p q) (hd : d ∈ p.transactions) :
    ∃ e ∈ q.transactions, trace T e = trace T d :=
  (Set.ext_iff.mp h.same (trace T d)).mp ⟨d,hd,rfl⟩

theorem trace_id {e : TransactionDetails} (h : trace T e = trace T d) : e.id = d.id :=
  congrArg Prod.fst h

theorem trace_tx {e : TransactionDetails} (h : trace T e = trace T d) : e.tx = d.tx :=
  congrArg (fun x => x.2.1) h

theorem trace_outside {e : TransactionDetails} (h : trace T e = trace T d) (hid : d.id ∉ T) :
    e.keptByBlock = d.keptByBlock ∧ e.receiveTime = d.receiveTime := by
  have hrest := congrArg (fun x => x.2.2) h
  simpa [trace, trace_id h, hid] using hrest

theorem Twin.known (h : Twin env T p q) (hp : haveTx id p = true) : haveTx id q = true := by
  simp only [haveTx, List.any_eq_true, beq_iff_eq] at hp ⊢
  obtain ⟨d,hd,hid⟩ := hp
  obtain ⟨e,he,heq⟩ := h.partner hd
  exact ⟨e,he,(trace_id heq).trans hid⟩

theorem recentlyDeleted_congr (h : ∀ record, record ∈ records p ↔ record ∈ records q) (id : Hash) :
    recentlyDeleted id p = recentlyDeleted id q := by
  rw [Bool.eq_iff_iff]
  simp only [recentlyDeleted, List.any_eq_true]
  exact exists_congr fun record => and_congr_left fun _ => h record

theorem Twin.spent (h : Twin env T p q) (hp : haveSpentInputs tx p = true) :
    haveSpentInputs tx q = true := by
  rw [haveSpentInputs_iff h.first.consistent] at hp
  rw [haveSpentInputs_iff h.second.consistent]
  rcases hp with ⟨im,him,d,hd,hown⟩ | ⟨place,hpl,d,hd,htkn⟩
  · obtain ⟨e,he,heq⟩ := h.partner hd
    exact .inl ⟨im,him,e,he,trace_tx heq ▸ hown⟩
  · obtain ⟨e,he,heq⟩ := h.partner hd
    have hid : d.id ∉ T := by
      intro hmem
      rw [h.silent d (.inl hd) hmem] at htkn
      cases htkn
    refine .inr ⟨place,hpl,e,he,?_⟩
    rw [taken, trace_tx heq, (trace_outside heq hid).1]
    exact htkn

theorem Twin.conflicts (h : Twin env T p q) (tx : Transaction) :
    haveSpentInputs tx p = haveSpentInputs tx q :=
  Bool.eq_iff_iff.mpr ⟨h.spent,h.symm.spent⟩

structure Alike (id : Hash) (p q p' q' : Pool) : Prop where
  added : ∃ new : List TransactionDetails, p'.transactions = p.transactions ++ new ∧
    q'.transactions = q.transactions ++ new ∧ (∀ d ∈ new, d.id = id) ∧
    (new ≠ [] → haveTx id p = false)
  first : records p' = records p
  second : records q' = records q

theorem alike_self : Alike id p q p q :=
  ⟨⟨[],by simp,by simp,by simp,fun h => absurd rfl h⟩,rfl,rfl⟩

theorem storeTx_of_fresh (iv fus : Bool) (h : haveTx d.id p = false) :
    Stored d p (storeTx d iv fus p).2 := by
  refine ⟨h,?_⟩
  unfold storeTx
  rw [if_neg (by simp [h])]
  dsimp only
  split_ifs <;> rfl

theorem storeTx_alike {iv fus : Bool} (h : haveTx d.id p = haveTx d.id q) :
    Alike d.id p q (storeTx d iv fus p).2 (storeTx d iv fus q).2 := by
  cases hp : haveTx d.id p with
  | true =>
    have hq := h.symm.trans hp
    unfold storeTx
    rw [if_pos hp, if_pos hq]
    exact alike_self
  | false =>
    have hsp := storeTx_of_fresh iv fus hp
    have hsq := storeTx_of_fresh iv fus (h.symm.trans hp)
    exact ⟨⟨[d],hsp.transactions,hsq.transactions,by simp,fun _ => hp⟩,hsp.records,hsq.records⟩

theorem admitTx_alike {fee : UInt64} {fus : Bool} {used : Option BlockInfo}
    (hdel : recentlyDeleted id p = recentlyDeleted id q) (hin : haveTx id p = haveTx id q) :
    Alike id p q (admitTx env now limit tx id bsz fee fus kb used p).2
      (admitTx env now limit tx id bsz fee fus kb used q).2 := by
  unfold admitTx
  rw [hdel]
  split_ifs
  · exact alike_self
  · exact alike_self
  · exact alike_self
  · exact storeTx_alike (d := details now tx id bsz fee kb (used.getD .clear)) hin

theorem addTx_alike (env : Env) (now : UInt64) (m : MainChain) (limit bsz : UInt64) (kb : Bool)
    (hsp : haveSpentInputs tx p = haveSpentInputs tx q)
    (hdel : recentlyDeleted id p = recentlyDeleted id q) (hin : haveTx id p = haveTx id q) :
    (∃ fault, addTx env now m limit tx id bsz kb p = .error fault ∧
      addTx env now m limit tx id bsz kb q = .error fault) ∨
    ∃ a b p' q', addTx env now m limit tx id bsz kb p = .ok (a, p') ∧
      addTx env now m limit tx id bsz kb q = .ok (b, q') ∧ Alike id p q p' q' := by
  unfold addTx
  rw [hsp]
  dsimp only
  split_ifs
  · exact .inr ⟨_,_,_,_,rfl,rfl,alike_self⟩
  · exact .inr ⟨_,_,_,_,rfl,rfl,alike_self⟩
  · exact .inr ⟨_,_,_,_,rfl,rfl,alike_self⟩
  · exact .inr ⟨_,_,_,_,rfl,rfl,alike_self⟩
  · cases checkInputsForPool env now m tx with
    | error fault => exact .inl ⟨fault,rfl,rfl⟩
    | ok used =>
      let fee := getInputsMoneyAmount tx.toTransactionPrefix -
        getOutsMoneyAmount tx.toTransactionPrefix
      let answer := admitTx env now limit tx id bsz fee
        (fee == 0 && isFusionTransaction env.currency tx bsz) kb used
      exact .inr ⟨(answer p).1,(answer q).1,(answer p).2,(answer q).2,rfl,rfl,
        admitTx_alike hdel hin⟩

theorem traces_append {new : List TransactionDetails}
    (hp : p'.transactions = p.transactions ++ new) :
    traces T p' = traces T p ∪ {x | ∃ d ∈ new, trace T d = x} := by
  ext x
  change (∃ d ∈ p'.transactions, trace T d = x) ↔
    (∃ d ∈ p.transactions, trace T d = x) ∨ ∃ d ∈ new, trace T d = x
  simp only [hp, List.mem_append, or_and_right, exists_or]

theorem Twin.grow (h : Twin env T p q) (ha : Alike id p q p' q') (hp : Upright env p')
    (hq : Upright env q') : ∃ T' ⊆ T, Twin env T' p' q' := by
  obtain ⟨⟨new,hnp,hnq,hids,hfresh⟩,hrp,hrq⟩ := ha
  have hrec : ∀ record, record ∈ records p' ↔ record ∈ records q' := by
    rw [hrp, hrq]
    exact h.deleted
  cases hnew : new with
  | nil =>
    subst hnew
    rw [List.append_nil] at hnp hnq
    refine ⟨T,List.Subset.refl T,?_,hrec,hp,hq,?_⟩
    · rw [traces, traces, hnp, hnq]
      exact h.same
    · rw [hnp, hnq]
      exact h.silent
  | cons first rest =>
    have hout : haveTx id p = false := hfresh (by rw [hnew]; exact List.cons_ne_nil _ _)
    have hne : ∀ d, d ∈ p.transactions ∨ d ∈ q.transactions → d.id ≠ id := by
      have hp' : ∀ d ∈ p.transactions, d.id ≠ id := by
        simpa [haveTx] using hout
      rintro d (hd | hd)
      · exact hp' d hd
      · obtain ⟨e,he,heq⟩ := h.symm.partner hd
        exact fun hid => hp' e he ((trace_id heq).trans hid)
    -- an id that comes back has the same flag and time in both pools
    have hkept : ∀ d : TransactionDetails, d.id ≠ id →
        (d.id ∈ T.filter (· != id) ↔ d.id ∈ T) := by
      intro d hd
      simp [hd]
    have hsame : ∀ r : Pool, (∀ d ∈ r.transactions, d.id ≠ id) →
        traces (T.filter (· != id)) r = traces T r := by
      intro r hr
      ext x
      refine exists_congr fun d => and_congr_right fun hd => ?_
      simp only [trace, hkept d (hr d hd)]
    refine ⟨T.filter (· != id),List.filter_sublist.subset,?_,hrec,hp,hq,?_⟩
    · rw [traces_append hnp, traces_append hnq, hsame p fun d hd => hne d (.inl hd),
        hsame q fun d hd => hne d (.inr hd), h.same]
    · rw [hnp, hnq]
      intro d hd hid
      have hold : d ∈ p.transactions ∨ d ∈ q.transactions := by
        have hnot : d ∉ new := fun hmem => by simp [hids d hmem] at hid
        simpa [hnot] using hd
      exact h.silent d hold ((hkept d (hne d hold)).mp hid)

theorem mem_takeTx : d ∈ (takeTx env id p).2.transactions ↔ d ∈ p.transactions ∧ d.id ≠ id := by
  rcases takeTx_cases env id p with ⟨hn,ht⟩ | ⟨e,-,rfl,ht⟩
  · rw [ht]
    exact (and_iff_left_of_imp fun hd => hn d hd).symm
  · rw [ht, removeTransaction_transactions, List.mem_filter, bne_iff_ne]

theorem takeTx_records : records (takeTx env id p).2 = records p := by
  rcases takeTx_cases env id p with ⟨-,ht⟩ | ⟨e,-,-,ht⟩
  · rw [ht]
  · rw [ht]
    exact removeTransaction_records e p

theorem Twin.shrink (h : Twin env T p q) (keep : TransactionDetails → Prop)
    (hkeep : ∀ d e, d ∈ p.transactions ∨ d ∈ q.transactions →
      e ∈ p.transactions ∨ e ∈ q.transactions → trace T d = trace T e → (keep d ↔ keep e))
    (hp : ∀ d, d ∈ p'.transactions ↔ d ∈ p.transactions ∧ keep d)
    (hq : ∀ d, d ∈ q'.transactions ↔ d ∈ q.transactions ∧ keep d)
    (hrec : ∀ record, record ∈ records p' ↔
      record ∈ records q')
    (hup : Upright env p') (huq : Upright env q') : Twin env T p' q' := by
  refine ⟨Set.ext fun x => ⟨?_,?_⟩,hrec,hup,huq,?_⟩
  · rintro ⟨d,hd,rfl⟩
    obtain ⟨hd,hk⟩ := (hp d).mp hd
    obtain ⟨e,he,heq⟩ := h.partner hd
    exact ⟨e,(hq e).mpr ⟨he,(hkeep e d (.inr he) (.inl hd) heq).mpr hk⟩,heq⟩
  · rintro ⟨d,hd,rfl⟩
    obtain ⟨hd,hk⟩ := (hq d).mp hd
    obtain ⟨e,he,heq⟩ := h.symm.partner hd
    exact ⟨e,(hp e).mpr ⟨he,(hkeep e d (.inl he) (.inr hd) heq).mpr hk⟩,heq⟩
  · intro d hd
    exact h.silent d (hd.imp (fun hd => ((hp d).mp hd).1) fun hd => ((hq d).mp hd).1)

theorem Twin.take (h : Twin env T p q) (id : Hash) :
    Twin env T (takeTx env id p).2 (takeTx env id q).2 := by
  refine h.shrink (fun d => d.id ≠ id) ?_ (fun _ => mem_takeTx) (fun _ => mem_takeTx) ?_
    (takeTx_upright id h.first) (takeTx_upright id h.second)
  · intro d e _ _ heq
    rw [trace_id heq]
  · rw [takeTx_records, takeTx_records]
    exact h.deleted

theorem mem_removeExpired {l : List TransactionDetails} :
    d ∈ (removeExpired env now l p).transactions ↔
      d ∈ p.transactions ∧ ∀ e ∈ l, isExpired env now e = true → d.id ≠ e.id := by
  induction l generalizing p with
  | nil => simp [removeExpired]
  | cons first rest ih =>
    have hrec : (recordDeleted now first.id p).transactions = p.transactions := by
      unfold recordDeleted
      split_ifs <;> rfl
    simp only [removeExpired]
    split_ifs with hexp
    · rw [ih, removeTransaction_transactions, hrec, List.mem_filter, bne_iff_ne,
        List.forall_mem_cons, and_assoc]
      simp [hexp]
    · rw [ih, List.forall_mem_cons]
      simp [hexp]

theorem mem_records_removeExpired {l : List TransactionDetails} {record : Hash × UInt64} :
    record ∈ records (removeExpired env now l p) ↔ record ∈ records p ∨
      record.2 = now ∧ recentlyDeleted record.1 p = false ∧
        ∃ e ∈ l, isExpired env now e = true ∧ e.id = record.1 := by
  induction l generalizing p with
  | nil => simp [removeExpired]
  | cons first rest ih =>
    simp only [removeExpired]
    split_ifs with hexp
    · rw [ih, removeTransaction_records]
      have hdel : ∀ id, recentlyDeleted id
          (removeTransaction env first (recordDeleted now first.id p)) =
            recentlyDeleted id (recordDeleted now first.id p) := fun id => by
        unfold recentlyDeleted
        rw [show (removeTransaction env first _).recentlyDeletedTransactions = _ from
          removeTransaction_records first _]
      rw [hdel, List.exists_mem_cons_iff]
      unfold recordDeleted
      split_ifs with hknown
      · refine or_congr_right (and_congr_right fun _ => and_congr_right fun hnot => ?_)
        refine ⟨.inr,fun h => h.resolve_left ?_⟩
        rintro ⟨-,heq⟩
        rw [heq, hnot] at hknown
        cases hknown
      · obtain ⟨id,time⟩ := record
        have hfirst : recentlyDeleted first.id p = false := by simpa using hknown
        have happend : recentlyDeleted id { p with
            recentlyDeletedTransactions := records p ++ [(first.id, now)] } =
              (recentlyDeleted id p || first.id == id) := by
          simp [recentlyDeleted]
        rw [happend]
        change (_ ∈ records p ++ [(first.id, now)] ∨ _) ↔ _
        by_cases hid : first.id = id
        · subst hid
          simp [hexp, hfirst]
        · simp [hid, Ne.symm hid]
    · rw [ih, List.exists_mem_cons_iff]
      simp [hexp]

theorem mem_expire (h : Upright env p) :
    d ∈ (removeExpiredTransactions env now p).transactions ↔
      d ∈ p.transactions ∧ isExpired env now d = false := by
  unfold removeExpiredTransactions
  rw [mem_removeExpired]
  refine and_congr_right fun hd => ⟨fun hall => ?_,fun hlive e he hexp hid => ?_⟩
  · by_contra hexp
    exact hall d hd (by simpa using hexp) rfl
  · rw [List.inj_on_of_nodup_map h.consistent.distinct hd he hid, hexp] at hlive
    cases hlive

theorem isExpired_congr {e : TransactionDetails} (hk : d.keptByBlock = e.keptByBlock)
    (ht : d.receiveTime = e.receiveTime) : isExpired env now d = isExpired env now e := by
  simp only [isExpired, hk, ht]

/-- What is expired in one pool is expired in the other one. -/
theorem Twin.gone (h : Twin env T p q)
    (hsame : ∀ d e, d ∈ p.transactions ∨ d ∈ q.transactions →
      e ∈ p.transactions ∨ e ∈ q.transactions → trace T d = trace T e →
      isExpired env now d = isExpired env now e)
    (hp : ∃ e ∈ p.transactions, isExpired env now e = true ∧ e.id = id) :
    ∃ e ∈ q.transactions, isExpired env now e = true ∧ e.id = id := by
  obtain ⟨e,he,hexp,hid⟩ := hp
  obtain ⟨f,hf,heq⟩ := h.partner he
  exact ⟨f,hf,(hsame f e (.inr hf) (.inl he) heq).trans hexp,(trace_id heq).trans hid⟩

theorem Twin.expire (h : Twin env T p q)
    (hlives : ∀ d, d ∈ p.transactions ∨ d ∈ q.transactions → d.id ∈ T →
      isExpired env now d = false) :
    Twin env T (removeExpiredTransactions env now p) (removeExpiredTransactions env now q) := by
  have hkeep : ∀ d e, d ∈ p.transactions ∨ d ∈ q.transactions →
      e ∈ p.transactions ∨ e ∈ q.transactions → trace T d = trace T e →
      isExpired env now d = isExpired env now e := by
    intro d e hd he heq
    by_cases hid : e.id ∈ T
    · rw [hlives d hd (trace_id heq ▸ hid), hlives e he hid]
    · obtain ⟨hk,ht⟩ := trace_outside heq hid
      exact isExpired_congr hk ht
  have hforgot : ∀ record, record ∈ records (forgetDeleted env now p) ↔
      record ∈ records (forgetDeleted env now q) := by
    intro record
    change record ∈ List.filter _ (records p) ↔ record ∈ List.filter _ (records q)
    rw [List.mem_filter, List.mem_filter]
    exact and_congr_left fun _ => h.deleted record
  refine h.shrink (fun d => isExpired env now d = false) ?_ (fun _ => mem_expire h.first)
    (fun _ => mem_expire h.second) ?_ (removeExpiredTransactions_upright now h.first)
    (removeExpiredTransactions_upright now h.second)
  · intro d e hd he heq
    rw [hkeep d e hd he heq]
  · intro record
    unfold removeExpiredTransactions
    rw [mem_records_removeExpired, mem_records_removeExpired, hforgot,
      recentlyDeleted_congr hforgot]
    refine or_congr_right (and_congr_right fun _ => and_congr_right fun _ => ?_)
    exact ⟨h.gone hkeep,h.symm.gone fun d e hd he => hkeep d e hd.symm he.symm⟩

end Twins

inductive PoolCall where
  | add (now : UInt64) (m : MainChain) (limit : UInt64) (tx : Transaction) (blobSize : UInt64)
      (keptByBlock : Bool)
  | take (id : Hash)
  | expire (now : UInt64)

/-- The pool after a call; a check of the inputs that throws leaves it as it
was. -/
def perform (env : Env) (p : Pool) : PoolCall → Pool
  | .add now m limit tx blobSize keptByBlock =>
    match addTx env now m limit tx (env.getObjectHash tx) blobSize keptByBlock p with
    | .ok (_, p') => p'
    | .error _ => p
  | .take id => (takeTx env id p).2
  | .expire now => removeExpiredTransactions env now p

def Allowed (env : Env) : PoolCall → Prop
  | .add _ _ _ tx _ _ => Checked env tx
  | _ => True

/-- None of the given transactions is too old for the pool when it drops the
old ones. -/
def Lives (env : Env) (L : List Hash) (p : Pool) : PoolCall → Prop
  | .expire now => ∀ d ∈ p.transactions, d.id ∈ L → isExpired env now d = false
  | _ => True

def LivesThrough (env : Env) (L : List Hash) : Pool → List PoolCall → Prop
  | _, [] => True
  | p, call :: rest => Lives env L p call ∧ LivesThrough env L (perform env p call) rest

theorem Twin.call {L : List Hash} {p q : Pool} {call : PoolCall} (h : Twin env T p q)
    (hL : T ⊆ L) (hcall : Allowed env call) (hp : Lives env L p call) (hq : Lives env L q call) :
    ∃ T' ⊆ T, Twin env T' (perform env p call) (perform env q call) := by
  cases call with
  | add now m limit tx blobSize keptByBlock =>
    have hin : haveTx (env.getObjectHash tx) p =
        haveTx (env.getObjectHash tx) q := Bool.eq_iff_iff.mpr ⟨h.known,h.symm.known⟩
    unfold perform
    rcases addTx_alike env now m limit blobSize keptByBlock (h.conflicts tx)
      (recentlyDeleted_congr h.deleted _) hin with
      ⟨fault,hep,heq⟩ | ⟨a,b,p',q',hap,haq,ha⟩
    · simp only [hep, heq]
      exact ⟨T,List.Subset.refl T,h⟩
    · simp only [hap, haq]
      exact h.grow ha (addTx_upright h.first hcall hap) (addTx_upright h.second hcall haq)
  | take id => exact ⟨T,List.Subset.refl T,h.take id⟩
  | expire now =>
    refine ⟨T,List.Subset.refl T,h.expire fun d hd hid => ?_⟩
    exact hd.elim (fun hd => hp d hd (hL hid)) fun hd => hq d hd (hL hid)

theorem Twin.calls {L : List Hash} {p q : Pool} {calls : List PoolCall}
    (h : Twin env T p q) (hL : T ⊆ L) (hcalls : ∀ call ∈ calls, Allowed env call)
    (hp : LivesThrough env L p calls) (hq : LivesThrough env L q calls) :
    ∃ T', Twin env T' (calls.foldl (perform env) p)
      (calls.foldl (perform env) q) := by
  induction calls generalizing p q T with
  | nil => exact ⟨T,h⟩
  | cons call rest ih =>
    obtain ⟨hfirst,hrest⟩ := List.forall_mem_cons.mp hcalls
    obtain ⟨_,hT',ht⟩ := h.call hL hfirst hp.1 hq.1
    exact ih ht (List.Subset.trans hT' hL) hrest hp.2 hq.2

theorem Lent.twin {T : List Hash} {p q : Pool} (h : Lent env now T [] p q) (hp : Upright env p)
    (hq : Upright env q) (hsilent : ∀ d ∈ p.transactions, d.id ∈ T → taken d = []) :
    Twin env T p q := by
  have hright : ∀ e ∈ q.transactions, ∃ d ∈ p.transactions, card e = flagged now T d := by
    intro e he
    obtain ⟨d,hd,-,hc⟩ := (h.cards (card e)).mp (List.mem_map_of_mem he)
    exact ⟨d,hd,hc⟩
  have htrace : ∀ d e : TransactionDetails, card e = flagged now T d → trace T e = trace T d := by
    intro d e hc
    simp only [card, flagged, Prod.mk.injEq] at hc
    obtain ⟨hid,htx,hk,ht⟩ := hc
    by_cases hmem : d.id ∈ T
    · simp [trace, hid, htx, hmem]
    · simp only [hmem, decide_false, Bool.or_false, if_false] at hk ht
      simp [trace, hid, htx, hmem, hk, ht]
  refine ⟨Set.ext fun x => ⟨?_,?_⟩,fun record => by rw [h.deleted],hp,hq,?_⟩
  · rintro ⟨d,hd,rfl⟩
    obtain ⟨e,he,hc⟩ := List.mem_map.mp ((h.cards (flagged now T d)).mpr ⟨d,hd,by simp,rfl⟩)
    exact ⟨e,he,htrace d e hc⟩
  · rintro ⟨e,he,rfl⟩
    obtain ⟨d,hd,hc⟩ := hright e he
    exact ⟨d,hd,(htrace d e hc).symm⟩
  · rintro e (he | he) hid
    · exact hsilent e he hid
    · obtain ⟨d,-,hc⟩ := hright e he
      simp only [card, flagged, Prod.mk.injEq] at hc
      rw [taken, hc.2.2.1, ← hc.1]
      simp [hid]

/-- After a refused block the conflict test of the pool answers as before,
whatever calls follow, as long as none of the transactions that were loaded for
the block gets too old, if and only if none of them that did not itself come
from a block has a multisignature input. -/
theorem conflicts_unchanged_iff {loaded : Finset Hash} {b : Block} {bvc : BlockVerificationContext}
    {n n' : Node} (hpool : Session env (Checked env) loaded n.pool)
    (hcall : pushPoolBlock env now b n = .ok (false, bvc) n') :
    (∀ calls, (∀ call ∈ calls, Allowed env call) →
      LivesThrough env (loadable (ids n.pool) b.transactionHashes) n.pool calls →
      LivesThrough env (loadable (ids n.pool) b.transactionHashes) n'.pool calls →
      ∀ tx, haveSpentInputs tx (calls.foldl (perform env) n'.pool) =
        haveSpentInputs tx (calls.foldl (perform env) n.pool)) ↔
      ∀ d ∈ n.pool.transactions, d.id ∈ loadable (ids n.pool) b.transactionHashes →
        d.keptByBlock = false → multisignatureSpends d.tx.inputs = [] := by
  have hp := ready_of_session hpool
  obtain ⟨T,hT,hl,hupr⟩ := pushPoolBlock_lent hp hcall
  constructor
  · intro hall d hd hlo hos
    have hs := hall [] (by simp) trivial trivial
    simp only [List.foldl_nil] at hs
    apply List.eq_nil_iff_forall_not_mem.mpr
    intro place hpl
    have hpr : place ∈ multisignatureSpends (probe place).inputs := List.mem_singleton_self _
    have hbef : haveSpentInputs (probe place) n.pool = true := by
      apply (haveSpentInputs_iff hp.upright.consistent _).mpr
      exact .inr ⟨place,hpr,d,hd,taken_of_outside hos ▸ hpl⟩
    rw [← hs, haveSpentInputs_iff hupr.consistent] at hbef
    rcases hbef with ⟨_,him,-⟩ | ⟨_,hoth,e,he,htkn⟩
    · cases him
    · rw [List.mem_singleton.mp hoth] at htkn
      have hout := outside_of_taken htkn
      obtain ⟨f,hf,-,hc⟩ := (hl.cards (card e)).mp (List.mem_map_of_mem he)
      simp only [card, flagged, Prod.mk.injEq, hout] at hc
      obtain ⟨-,htx,hk,-⟩ := hc
      rw [eq_comm, Bool.or_eq_false_iff, decide_eq_false_iff_not] at hk
      -- the transactions from outside have no output in common, so this is the same one
      have hne : f ≠ d := by
        rintro rfl
        exact hk.2 ((hT _).mpr hlo)
      have hap := hp.upright.consistent.apart.forall hf hd hne hk.1 hos
      refine hap.2 ?_ hpl
      rw [← htx, ← taken_of_outside hout]
      exact htkn
  · intro hn calls hcalls hlp hlq tx
    have htwin : Twin env T n.pool n'.pool := by
      refine hl.twin hp.upright hupr fun d hd hid => ?_
      cases hos : d.keptByBlock with
      | true => simp [taken, hos]
      | false => rw [taken_of_outside hos, hn d hd ((hT _).mp hid) hos]
    obtain ⟨_,hend⟩ := htwin.calls (fun id hid => (hT id).mp hid) hcalls hlp hlq
    exact (hend.conflicts tx).symm

def feeSpend : Transaction :=
  { keySpend with outputs := [⟨5297658300000, .key 1⟩], extra := [6] }

def ringPool : Pool :=
  after (init sampleEnv 0 none) (addTx sampleEnv 120 spentNode.main 100000 feeSpend
    (sampleEnv.getObjectHash feeSpend) (getObjectBinarySize feeSpend) false
    (init sampleEnv 0 none))

theorem ringPool_session : Session sampleEnv (Checked sampleEnv) ∅ ringPool := by
  have hq : Checked sampleEnv feeSpend := rfl
  exact after_session .start hq

def ringNode : Node := spentNode.setPool ringPool

def ringBlock : Block := { keyBlock with transactionHashes := [6, 99] }

def ringRefused : Node := left (pushPoolBlock sampleEnv 222 ringBlock ringNode)

def laterCalls : List PoolCall :=
  [.expire 500, .add 600 spentNode.main 100000 keySpend (getObjectBinarySize keySpend) true,
    .take 5, .expire 9000]

theorem laterCalls_allowed : ∀ call ∈ laterCalls, Allowed sampleEnv call := by
  simp only [laterCalls, List.forall_mem_cons]
  exact ⟨trivial,rfl,trivial,trivial,by simp⟩

/-- A transaction with a key image is loaded for a block whose other hash the
pool does not know. It comes back as one from a block, and a second spend of the
image is still a conflict two hours later. -/
theorem conflicts_unchanged_sample :
    ringRefused.pool.transactions.map card = [(6, feeSpend, true, 222)] ∧
      haveSpentInputs keySpend (laterCalls.foldl (perform sampleEnv) ringRefused.pool) = true := by
  have hc : pushPoolBlock sampleEnv 222 ringBlock ringNode = .ok (false, .failed) ringRefused :=
    eq_ok_of_value (by decide)
  have hbefore : haveSpentInputs keySpend
      (laterCalls.foldl (perform sampleEnv) ringNode.pool) = true := by
    decide
  refine ⟨by decide,Eq.trans ?_ hbefore⟩
  refine (conflicts_unchanged_iff (n := ringNode) ringPool_session hc).mpr (by decide)
    laterCalls laterCalls_allowed ?_ ?_ keySpend
  all_goals
    simp only [laterCalls, LivesThrough, Lives]
    decide

def waitingNode : Node := sampleNode.setPool (heldPool sampleEnv)

def listing (hashes : List Hash) : Block := mine 3 1 111 sampleReward (hashes ++ [99])

def refusing (hashes : List Hash) : Node :=
  left (pushPoolBlock sampleEnv 111 (listing hashes) waitingNode)

theorem refusing_call {hashes : List Hash}
    (h : value (pushPoolBlock sampleEnv 111 (listing hashes) waitingNode) = some (false, .failed)) :
    pushPoolBlock sampleEnv 111 (listing hashes) waitingNode =
      .ok (false, .failed) (refusing hashes) :=
  eq_ok_of_value h

/-- The pool rejects a transaction that spends an output once more; after it was
offered a block that it does not have in full, it accepts that transaction. -/
theorem conflict_forgotten : Session sampleEnv (Checked sampleEnv) ∅ waitingNode.pool ∧
    pushPoolBlock sampleEnv 111 (listing [sampleEnv.getObjectHash (smallSpend 4)]) waitingNode =
      .ok (false, .failed) (refusing [sampleEnv.getObjectHash (smallSpend 4)]) ∧
    haveSpentInputs (smallSpend 5) waitingNode.pool = true ∧ haveSpentInputs (smallSpend 5)
      (refusing [sampleEnv.getObjectHash (smallSpend 4)]).pool = false :=
  ⟨heldPool_session rfl,refusing_call (by decide),
    by decide,by decide⟩

end Orbis.ChainConflict
