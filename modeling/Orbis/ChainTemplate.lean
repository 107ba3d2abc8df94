import Mathlib.Data.List.TakeWhile
import Orbis.ChainReady

/-!
# What a block template takes from the pool

`fill_block_template` goes over the fee index twice: backwards over the
transactions without a fee, then forwards over all of them. A transaction is
taken only if none of its inputs is in use in the template, so the second pass
takes nothing again. The pool keeps its transactions and only writes down what
was found out about their inputs.
-/

set_option autoImplicit false

namespace Orbis.ChainTemplate

open FaultState ChainTypes ChainSemantic ChainBlock ChainPool ChainRun ChainReady
open BlockTemplate

def spends : TransactionInput → Option (KeyImage ⊕ UInt64 × UInt32)
  | .base _ => none
  | .key _ _ image => some (.inl image)
  | .multisignature amount _ outputIndex => some (.inr (amount, outputIndex))

def spent (d : TransactionDetails) : List (KeyImage ⊕ UInt64 × UInt32) :=
  d.tx.inputs.filterMap spends

def InUse (t : BlockTemplate) : KeyImage ⊕ UInt64 × UInt32 → Prop
  | .inl image => image ∈ t.keyImages
  | .inr output => output ∈ t.usedOutputs

def bare (d : TransactionDetails) : TransactionDetails :=
  { d with maxUsedBlock := .clear, lastFailedBlock := .clear }

structure SameBare (p p' : Pool) : Prop where
  transactions : p'.transactions.map bare = p.transactions.map bare
  rest : p' = { p with transactions := p'.transactions }

variable {inputs : List TransactionInput} {info : TransactionCheckInfo} {fee ms : UInt64}

section Inputs

variable {t : BlockTemplate} {inp : TransactionInput} {s : KeyImage ⊕ UInt64 × UInt32}

theorem isSome_spends (ip : TransactionInput) : (spends ip).isSome = isSupported ip := by
  cases ip <;> rfl

theorem freeInput_iff : freeInput t inp = true ↔ ∀ s ∈ spends inp, ¬ InUse t s := by
  cases inp <;> simp [freeInput, spends, InUse]

theorem inUse_useInput : InUse (useInput t inp) s ↔ s ∈ spends inp ∨ InUse t s := by
  cases inp <;> rcases s with _ | ⟨_,_⟩ <;> simp [useInput, spends, InUse, eq_comm]

theorem inUse_foldl :
    InUse (inputs.foldl useInput t) s ↔ s ∈ inputs.filterMap spends ∨ InUse t s := by
  induction inputs generalizing t with
  | nil => simp
  | cons _ _ ih =>
    rw [List.foldl_cons, ih, inUse_useInput, List.mem_filterMap, List.mem_filterMap]
    simp only [List.mem_cons, exists_eq_or_imp, Option.mem_def]
    exact or_left_comm.trans or_assoc.symm

theorem foldl_txHashes : (inputs.foldl useInput t).txHashes = t.txHashes := by
  induction inputs generalizing t with
  | nil => rfl
  | cons inp _ ih => cases inp <;> exact ih

theorem canAdd_iff {d : TransactionDetails} :
    canAdd d.tx t = true ↔ ∀ s ∈ spent d, ¬ InUse t s := by
  simp only [canAdd, List.all_eq_true, freeInput_iff, spent, List.mem_filterMap]
  constructor
  · rintro h s ⟨inp,hin,hs⟩
    exact h inp hin s hs
  · exact fun h inp hin s hs => h s ⟨inp,hin,hs⟩

end Inputs

section Passes

variable (env : Env) (now : UInt64) (m : MainChain)

structure Filled (f : Filling) (chosen : List TransactionDetails) : Prop where
  hashes : f.template.txHashes = chosen.map (·.id)
  used : ∀ s, InUse f.template s ↔ ∃ d ∈ chosen, s ∈ spent d
  apart : chosen.Pairwise fun a b => (spent a).Disjoint (spent b)
  ready : ∀ d ∈ chosen, ∃ info, ready env now m d = .ok (true, info)
  size : f.totalSize = (chosen.map (·.blobSize)).sum
  fee : f.fee = (chosen.map (·.fee)).sum

def Takes (l : List TransactionDetails) (f f' : Filling) : Prop :=
  ∀ chosen, Filled env now m f chosen →
    ∃ more, more.Sublist l ∧ Filled env now m f' (chosen ++ more)

variable {env now m} {l : List TransactionDetails} {d : TransactionDetails} {f f' : Filling}
variable {p p' : Pool}

theorem Takes.skip (h : Takes env now m l f f') : Takes env now m (d :: l) f f' := by
  intro chosen hf
  obtain ⟨more,hsub,hf'⟩ := h chosen hf
  exact ⟨more,hsub.cons d,hf'⟩

theorem Takes.cons {g : Filling} (hd : Takes env now m [d] f g) (h : Takes env now m l g f') :
    Takes env now m (d :: l) f f' := by
  intro chosen hf
  obtain ⟨one,hone,hg⟩ := hd chosen hf
  obtain ⟨more,hsub,_⟩ := h _ hg
  exact ⟨one ++ more,hone.append hsub,by rwa [← List.append_assoc]⟩

theorem takes_add {isReady : Bool} (hr : ready env now m d = .ok (isReady, info))
    (hfee : fee = d.fee) : Takes env now m [d] f (f.add d isReady fee) := by
  intro chosen hf
  have hs : ∃ more, more.Sublist [d] ∧ Filled env now m f (chosen ++ more) :=
    ⟨[],List.nil_sublist _,by rwa [List.append_nil]⟩
  cases isReady with
  | false => exact hs
  | true =>
    by_cases hcan : canAdd d.tx f.template = true
    · refine ⟨[d],.refl _,?_⟩
      have hfr := canAdd_iff.mp hcan
      simp only [Filling.add, addTransaction, hcan]
      refine ⟨?_,fun s => ?_,?_,?_,?_,?_⟩
      · simp [foldl_txHashes, hf.hashes]
      · refine inUse_foldl.trans ?_
        rw [hf.used s]
        simp only [List.mem_append, List.mem_singleton, or_and_right, exists_or, exists_eq_left]
        exact or_comm
      · refine List.pairwise_append.mpr ⟨hf.apart,List.pairwise_singleton _ _,?_⟩
        intro a ha b hb s hsa hsb
        rw [List.mem_singleton.mp hb] at hsb
        exact hfr s hsb ((hf.used s).mpr ⟨a,ha,hsa⟩)
      · intro e he
        rcases List.mem_append.mp he with hold | hnew
        · exact hf.ready e hold
        · rw [List.mem_singleton.mp hnew]
          exact ⟨info,hr⟩
      · simp [List.sum_append, hf.size]
      · simp [List.sum_append, hf.fee, hfee]
    · simpa [Filling.add, addTransaction, hcan] using hs

theorem fillZeroFee_takes (hz : ∀ d ∈ l, d.fee = 0)
    (h : fillZeroFee env now m l f = .ok f') : Takes env now m l f f' := by
  induction l generalizing f with
  | nil =>
    cases h
    exact fun chosen hf => ⟨[],.slnil,by rwa [List.append_nil]⟩
  | cons _ _ ih =>
    rw [List.forall_mem_cons] at hz
    simp only [fillZeroFee] at h
    split_ifs at h
    · exact (ih hz.2 h).skip
    · obtain ⟨⟨_,_⟩,hr,h⟩ := except_bind_ok.mp h
      exact (takes_add hr hz.1.symm).cons (ih hz.2 h)

theorem SameBare.trans {q : Pool} (h : SameBare p q) (h' : SameBare q p') : SameBare p p' :=
  ⟨h'.transactions.trans h.transactions,by rw [h'.rest, h.rest]⟩

theorem rememberAt_sameBare {id : Hash} : SameBare p (rememberAt id info p) := by
  refine ⟨?_,rfl⟩
  simp only [rememberAt, List.map_map]
  apply List.map_congr_left
  intro d _
  simp only [Function.comp_apply]
  split_ifs <;> rfl

theorem fillAll_takes {maxTotalSize : UInt64}
    (h : fillAll env now m ms maxTotalSize l f p = .ok f' p') :
    Takes env now m l f f' ∧ SameBare p p' := by
  induction l generalizing f p with
  | nil =>
    cases h
    exact ⟨fun chosen hf => ⟨[],.slnil,by rwa [List.append_nil]⟩,rfl,rfl⟩
  | cons d _ ih =>
    simp only [fillAll] at h
    by_cases hl : (if d.fee = 0 then ms else maxTotalSize) < f.totalSize + d.blobSize
    · rw [if_pos hl] at h
      exact ⟨(ih h).1.skip,(ih h).2⟩
    · rw [if_neg hl] at h
      obtain ⟨⟨_,_⟩,_,hr,h⟩ := bind_ok.mp h
      obtain ⟨hre,rfl⟩ := (reading_ok _ _ _ _).mp hr
      rw [modify_bind] at h
      exact ⟨(takes_add hre rfl).cons (ih h).1,rememberAt_sameBare.trans (ih h).2⟩

theorem feeIndex_bare (p : Pool) : (feeIndex p).map bare =
    (p.transactions.map bare).insertionSort fun a b => prior b a = false :=
  List.map_insertionSort _ _ _ _ fun _ _ _ _ => Iff.rfl

theorem fillBlockTemplate_filled {mcs totalSize : UInt64} {hashes : List Hash}
    (h : fillBlockTemplate env now m ms mcs p = .ok (hashes, totalSize, fee) p') :
    (∃ t chosen, (∀ d ∈ chosen, d ∈ p.transactions) ∧ hashes = t.txHashes ∧
      Filled env now m ⟨t, totalSize, fee⟩ chosen) ∧ SameBare p p' := by
  unfold fillBlockTemplate at h
  rw [get_bind] at h
  obtain ⟨_,q,hr,h⟩ := bind_ok.mp h
  obtain ⟨hfr,rfl⟩ := (reading_ok _ _ _ _).mp hr
  obtain ⟨f',q,hall,h⟩ := bind_ok.mp h
  cases h
  have hs : Filled env now m ⟨.empty, 0, 0⟩ [] :=
    ⟨rfl,by rintro (_ | _) <;> simp [InUse, BlockTemplate.empty],.nil,by simp,rfl,rfl⟩
  have hz : ∀ d ∈ (feeIndex p).reverse.takeWhile fun d => d.fee = 0, d.fee = 0 :=
    fun d hd => by simpa using List.mem_takeWhile_imp hd
  obtain ⟨first,hfst,hf⟩ := fillZeroFee_takes hz hfr [] hs
  -- the fee starts again from zero, which is the sum of the fees so far
  have hn : ∀ x ∈ first.map (·.fee), x = 0 := by
    intro x hx
    obtain ⟨d,hd,rfl⟩ := List.mem_map.mp hx
    exact hz d (hfst.subset hd)
  have hsum : (first.map (·.fee)).sum = 0 := by
    rw [List.eq_replicate_of_mem hn]
    simp
  obtain ⟨ht,hsa⟩ := fillAll_takes hall
  obtain ⟨more,hm,hf⟩ := ht first { hf with fee := hsum.symm }
  refine ⟨⟨f'.template,first ++ more,fun d hd => ?_,rfl,hf⟩,hsa⟩
  rw [← List.mem_insertionSort fun a b => prior b a = false]
  rcases List.mem_append.mp hd with hd | hd
  · exact List.mem_reverse.mp ((List.takeWhile_sublist _).subset (hfst.subset hd))
  · exact hm.subset hd

/-- The transactions of a template are different ones that were ready and share
no input, its size and its fee are the sums of theirs, and the pool has the
same transactions in the same order of fees afterwards. -/
theorem template_transactions {medianSize maxCumulativeSize totalSize fee : UInt64}
    {hashes : List Hash} (hdistinct : (p.transactions.map (·.id)).Nodup)
    (hinput : ∀ d ∈ p.transactions, ∃ input ∈ d.tx.inputs, isSupported input = true)
    (h : fillBlockTemplate env now m medianSize maxCumulativeSize p =
      .ok (hashes, totalSize, fee) p') :
    ∃ chosen : List TransactionDetails, (∀ d ∈ chosen, d ∈ p.transactions) ∧
      hashes = chosen.map (·.id) ∧ hashes.Nodup ∧
      chosen.Pairwise (fun a b => (spent a).Disjoint (spent b)) ∧
      (∀ d ∈ chosen, ∃ info, ready env now m d = .ok (true, info)) ∧
      totalSize = (chosen.map (·.blobSize)).sum ∧ fee = (chosen.map (·.fee)).sum ∧
      SameBare p p' ∧ (feeIndex p').map bare = (feeIndex p).map bare := by
  obtain ⟨⟨_,chosen,hmem,rfl,hf⟩,hsa⟩ := fillBlockTemplate_filled h
  refine ⟨chosen,hmem,hf.hashes,?_,hf.apart,hf.ready,hf.size,hf.fee,hsa,?_⟩
  · rw [hf.hashes, List.Nodup, List.pairwise_map]
    refine hf.apart.imp_of_mem fun {a b} ha hb hap heq => ?_
    -- a transaction shares its own inputs
    obtain rfl := List.inj_on_of_nodup_map hdistinct (hmem a ha) (hmem b hb) heq
    obtain ⟨input,hin,hsup⟩ := hinput a (hmem a ha)
    obtain ⟨s,hs⟩ := Option.isSome_iff_exists.mp ((isSome_spends input).trans hsup)
    have hsp : s ∈ spent a := List.mem_filterMap.mpr ⟨input,hin,hs⟩
    exact hap hsp hsp
  · rw [feeIndex_bare, feeIndex_bare, hsa.transactions]

end Passes

theorem ringSpend_signed (image : KeyImage) : ([[⟨0, 0⟩]] : List (List Signature)).map List.length =
    ([.key 5297658301515 [0] image] : List TransactionInput).map getSignaturesCount := rfl

def ringSpend (label : UInt8) (image : KeyImage) (paid : UInt64) : Transaction where
  version := 1
  unlockTime := 0
  inputs := [.key 5297658301515 [0] image]
  outputs := [⟨paid, .key 1⟩]
  extra := [label]
  signatures := [[⟨0, 0⟩]]
  signed := ringSpend_signed image

def crowdedPool : Pool :=
  insertDetails (details 10000 (ringSpend 6 7 5297658301510) 6 80 5 false .clear)
    (insertDetails (details 10000 (ringSpend 5 7 5297658301514) 5 70 1 false .clear)
      (insertDetails (details 10000 (ringSpend 4 8 5297658301515) 4 60 0 false .clear)
        paidNode.pool))

theorem template_transactions_sample :
    ∃ chosen : List TransactionDetails, (∀ d ∈ chosen, d ∈ crowdedPool.transactions) ∧
      chosen.map (·.id) = [4, 6] ∧ (chosen.map (·.blobSize)).sum = 140 ∧
      (chosen.map (·.fee)).sum = 5 ∧
      chosen.Pairwise (fun a b => (spent a).Disjoint (spent b)) := by
  have hv : value (fillBlockTemplate sampleEnv 10000 paidNode.main 20000 20000 crowdedPool) =
      some ([4, 6], 140, 5) := by decide +kernel
  obtain ⟨chosen,hmem,hids,-,hapart,-,hsize,hfee,-⟩ :=
    template_transactions (by decide +kernel) (by decide +kernel) (eq_ok_of_value hv)
  exact ⟨chosen,hmem,hids.symm,hsize.symm,hfee.symm,hapart⟩

end Orbis.ChainTemplate
