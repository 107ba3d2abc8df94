import Orbis.ChainPool

/-!
# The key images of the pool

Next to its transactions the pool keeps, for every key image, the ids of the
transactions that use it. As long as the transactions have passed the
semantic check, the two always agree: adding a transaction enters its id
under each of its images, and removing it takes the id out again.
-/

set_option autoImplicit false

namespace Orbis.ChainPoolIndex

open ChainTypes ChainSemantic ChainBlock ChainPool

variable {p : Pool} {id : Hash} {tx : Transaction}

structure Tidy (p : Pool) : Prop where
  distinct : (p.transactions.map TransactionDetails.id).Nodup
  images : ∀ image id, id ∈ imageSet image p ↔
    ∃ d ∈ p.transactions, d.id = id ∧ image ∈ keyImages d.tx.inputs

theorem tidy_empty : Tidy Pool.empty where
  distinct := List.nodup_nil
  images := by simp [imageSet, Pool.empty]

theorem imageSet_setImage (p : Pool) (im o : KeyImage) (ids : Finset Hash) :
    imageSet o (setImage im ids p) = if o = im then ids else imageSet o p := by
  unfold imageSet setImage
  by_cases heq : o = im
  · subst heq
    simp
  · rw [if_neg heq, Finmap.lookup_insert_of_ne _ heq]

theorem imageSet_eraseImage (p : Pool) (im o : KeyImage) :
    imageSet o (eraseImage im p) = if o = im then ∅ else imageSet o p := by
  unfold imageSet eraseImage
  by_cases heq : o = im
  · subst heq
    simp
  · rw [if_neg heq, Finmap.lookup_erase_ne heq]

theorem imageSet_release (p : Pool) (im o : KeyImage) (ids : Finset Hash) :
    imageSet o (if ids = ∅ then eraseImage im p else setImage im ids p) =
      if o = im then ids else imageSet o p := by
  by_cases hemp : ids = ∅
  · rw [if_pos hemp, hemp]
    exact imageSet_eraseImage p im o
  · rw [if_neg hemp]
    exact imageSet_setImage p im o ids

variable {ins : List TransactionInput} {m : MainChain} {p' : Pool}

theorem addTransactionInputs_images (id : Hash) (kb : Bool) (hnd : (keyImages ins).Nodup)
    (hf : ∀ im ∈ keyImages ins,
      id ∉ imageSet im p ∧ (kb = true ∨ imageSet im p = ∅)) :
    (addTransactionInputs id kb ins p).1 = true ∧
      ∀ im, imageSet im (addTransactionInputs id kb ins p).2 =
        if im ∈ keyImages ins then insert id (imageSet im p) else imageSet im p := by
  induction ins generalizing p with
  | nil => simp [addTransactionInputs]
  | cons inp rest ih =>
    cases inp with
    | base _ => exact ih hnd hf
    | key _ _ im =>
      rw [keyImages_key, List.nodup_cons] at hnd
      obtain ⟨hnew,hemp⟩ := hf im (by simp)
      have ho : (!(kb || decide (imageSet im p = ∅))) = false := by
        rcases hemp with hk | hn
        · simp [hk]
        · simp [hn]
      simp only [addTransactionInputs, ho, Bool.false_eq_true, if_false, hnew]
      have hr : ∀ o ∈ keyImages rest,
          imageSet o (setImage im (insert id (imageSet im p)) p) = imageSet o p := by
        intro o hoth
        rw [imageSet_setImage, if_neg]
        rintro rfl
        exact hnd.1 hoth
      obtain ⟨ht,hs⟩ := ih (p := setImage im (insert id (imageSet im p)) p) hnd.2 (by
          intro o hoth
          rw [hr o hoth]
          exact hf o (by simp [hoth]))
      refine ⟨ht,fun o => ?_⟩
      rw [hs o]
      by_cases hmem : o ∈ keyImages rest
      · rw [if_pos hmem, hr o hmem, if_pos (by simp [hmem])]
      · rw [if_neg hmem, imageSet_setImage]
        by_cases heq : o = im
        · subst heq
          simp
        · rw [if_neg heq, if_neg (by simp [heq, hmem])]
    | multisignature amt _ oi =>
      simp only [addTransactionInputs, keyImages_multisignature]
      split_ifs
      · exact ih hnd hf
      · exact ih (p := setSpentOutputs (insert (amt, oi) p.spentOutputs) p) hnd hf

theorem removeTransactionInputs_images (id : Hash) (kb : Bool)
    (hnd : (keyImages ins).Nodup)
    (hh : ∀ im ∈ keyImages ins, id ∈ imageSet im p) (im : KeyImage) :
    imageSet im (removeTransactionInputs id kb ins p) =
      if im ∈ keyImages ins then (imageSet im p).erase id else imageSet im p := by
  induction ins generalizing p with
  | nil => simp [removeTransactionInputs]
  | cons inp _ ih =>
    cases inp with
    | base _ => exact ih hnd hh
    | key _ _ first =>
      rw [keyImages_key, List.nodup_cons] at hnd
      have hfst := hh first (by simp)
      have hs := fun o => imageSet_release p first o ((imageSet first p).erase id)
      simp only [removeTransactionInputs, hfst, not_true_eq_false, if_false]
      rw [ih (p := if (imageSet first p).erase id = ∅ then eraseImage first p
        else setImage first ((imageSet first p).erase id) p) hnd.2]
      · rw [hs im]
        by_cases heq : im = first
        · subst heq
          simp [hnd.1]
        · simp [heq]
      · intro o hoth
        rw [hs o, if_neg]
        · exact hh o (by simp [hoth])
        · rintro rfl
          exact hnd.1 hoth
    | multisignature amt _ oi =>
      simp only [removeTransactionInputs, keyImages_multisignature]
      by_cases hk : kb = true
      · rw [if_pos hk]
        exact ih hnd hh
      · rw [if_neg hk]
        exact ih (p := setSpentOutputs (p.spentOutputs.erase (amt, oi)) p) hnd hh

theorem haveTx_eq_false (h : haveTx id p = false) : ∀ d ∈ p.transactions, d.id ≠ id := by
  simpa [haveTx] using h

theorem imageSet_eq_empty {im : KeyImage} (h : im ∉ p.spentKeyImages) : imageSet im p = ∅ := by
  simp [imageSet, Finmap.lookup_eq_none.mpr h]

theorem storeTx_tidy {d : TransactionDetails} (ht : Tidy p) (hnd : (keyImages d.tx.inputs).Nodup)
    (hf : d.keptByBlock = true ∨ ∀ im ∈ keyImages d.tx.inputs, imageSet im p = ∅)
    (iv fus : Bool) : Tidy (storeTx d iv fus p).2 ∧
      (haveTx d.id p = false → (storeTx d iv fus p).1.1 = true) := by
  cases hh : haveTx d.id p with
  | true =>
    unfold storeTx
    rw [if_pos hh]
    exact ⟨ht,fun hff => Bool.noConfusion hff⟩
  | false =>
    have hnew := haveTx_eq_false hh
    obtain ⟨had,hse⟩ := addTransactionInputs_images d.id d.keptByBlock
      (p := insertDetails d p) hnd (by
        intro im him
        refine ⟨fun hmem => ?_,?_⟩
        · obtain ⟨o,hoth,hid,-⟩ := (ht.images im d.id).mp hmem
          exact hnew o hoth hid
        · rcases hf with hk | hemp
          · exact .inl hk
          · exact .inr (hemp im him))
    have hs : (storeTx d iv fus p).1.1 = true ∧ (storeTx d iv fus p).2 =
          (addTransactionInputs d.id d.keptByBlock d.tx.inputs (insertDetails d p)).2 := by
      unfold storeTx
      rw [if_neg (by simp [hh])]
      simp [had]
    rw [hs.2]
    have htxs := addTransactionInputs_transactions d.id d.keptByBlock d.tx.inputs
      (insertDetails d p)
    refine ⟨⟨?_,?_⟩,fun _ => hs.1⟩
    · rw [htxs, insertDetails, List.map_append, List.map_singleton, ← List.concat_eq_append]
      refine ht.distinct.concat ?_
      rintro hmem
      obtain ⟨o,hoth,hid⟩ := List.mem_map.mp hmem
      exact hnew o hoth hid
    · intro im id
      have hold : imageSet im (insertDetails d p) = imageSet im p := rfl
      rw [hse im, htxs, hold]
      simp only [insertDetails, List.mem_append, List.mem_singleton]
      split_ifs with him
      · rw [Finset.mem_insert, ht.images]
        constructor
        · rintro (rfl | ⟨o,hoth,hr⟩)
          · exact ⟨d,.inr rfl,rfl,him⟩
          · exact ⟨o,.inl hoth,hr⟩
        · rintro ⟨o,hoth | rfl,hid,hmem⟩
          · exact .inr ⟨o,hoth,hid,hmem⟩
          · exact .inl hid.symm
      · rw [ht.images]
        constructor
        · rintro ⟨o,hoth,hr⟩
          exact ⟨o,.inl hoth,hr⟩
        · rintro ⟨o,hoth | rfl,hid,hmem⟩
          · exact ⟨o,hoth,hid,hmem⟩
          · exact absurd hmem him

variable {env : Env} {now : UInt64}

theorem addTx_tidy {limit : UInt64} {bsz : UInt64} {kb added : Bool} {tvc : TxVerificationContext}
    (ht : Tidy p) (hnd : (keyImages tx.inputs).Nodup)
    (h : addTx env now m limit tx id bsz kb p = .ok ((added, tvc), p')) : Tidy p' := by
  rcases addTx_stores env now h with ⟨rfl,-⟩ | ⟨_,valid,fusion,rfl,rfl,rfl,⟨-,hsp⟩,hs⟩
  · exact ht
  · have hsto := (storeTx_tidy ht hnd ?_ valid fusion).1
    · rwa [hs] at hsto
    · refine hsp.imp_right fun hf im him => imageSet_eq_empty fun hmem => ?_
      obtain ⟨inp,hin,hso⟩ := List.mem_filterMap.mp him
      cases inp <;> cases hso
      have hn := hf.1
      rw [haveSpentInputs, List.any_eq_false] at hn
      exact hn _ hin (by simpa [haveSpentInput] using hmem)

theorem removeTransaction_tidy {d : TransactionDetails} (ht : Tidy p) (hd : d ∈ p.transactions)
    (hnd : (keyImages d.tx.inputs).Nodup) : Tidy (removeTransaction env d p) := by
  have hs := removeTransactionInputs_images d.id d.keptByBlock hnd
    (fun im him => (ht.images im d.id).mpr ⟨d,hd,rfl,him⟩)
  have hinj := List.inj_on_of_nodup_map ht.distinct
  refine ⟨?_,?_⟩
  · rw [removeTransaction_transactions]
    exact ht.distinct.sublist (List.filter_sublist.map _)
  · intro im id
    rw [removeTransaction_transactions]
    change id ∈ imageSet im (removeTransactionInputs d.id d.keptByBlock d.tx.inputs p) ↔ _
    rw [hs im]
    simp only [List.mem_filter, bne_iff_ne, ne_eq]
    split_ifs with him
    · rw [Finset.mem_erase, ht.images]
      constructor
      · rintro ⟨hne,o,hoth,rfl,hmem⟩
        exact ⟨o,⟨hoth,hne⟩,rfl,hmem⟩
      · rintro ⟨o,⟨hoth,hne⟩,rfl,hmem⟩
        exact ⟨hne,o,hoth,rfl,hmem⟩
    · rw [ht.images]
      constructor
      · rintro ⟨o,hoth,rfl,hmem⟩
        refine ⟨o,⟨hoth,fun heq => him ?_⟩,rfl,hmem⟩
        rwa [← hinj hoth hd heq]
      · rintro ⟨o,⟨hoth,-⟩,rfl,hmem⟩
        exact ⟨o,hoth,rfl,hmem⟩

theorem tidy_congr (ht : Tidy p) (htxs : p'.transactions = p.transactions)
    (hims : p'.spentKeyImages = p.spentKeyImages) : Tidy p' where
  distinct := htxs ▸ ht.distinct
  images := by
    intro im id
    have hs : imageSet im p' = imageSet im p := by
      unfold imageSet
      rw [hims]
    rw [hs, htxs]
    exact ht.images im id

theorem removeExpired_keeps {I : Pool → Prop} (hre : ∀ p id, I p → I (recordDeleted now id p))
    (hremove : ∀ p d, I p → d ∈ p.transactions → I (removeTransaction env d p))
    {l : List TransactionDetails} (hl : (l.map TransactionDetails.id).Nodup)
    (hin : ∀ d ∈ l, d ∈ p.transactions) (hp : I p) : I (removeExpired env now l p) := by
  induction l generalizing p with
  | nil => exact hp
  | cons d _ ih =>
    rw [List.map_cons, List.nodup_cons] at hl
    simp only [removeExpired]
    split_ifs
    · have hr : (recordDeleted now d.id p).transactions = p.transactions := by
        unfold recordDeleted
        split_ifs <;> rfl
      apply ih hl.2
      · intro e he
        rw [removeTransaction_transactions, hr, List.mem_filter, bne_iff_ne]
        refine ⟨hin e (List.mem_cons_of_mem _ he),fun heq => hl.1 ?_⟩
        rw [← heq]
        exact List.mem_map_of_mem he
      · apply hremove _ _ (hre p d.id hp)
        rw [hr]
        exact hin d List.mem_cons_self
    · exact ih hl.2 (fun e he => hin e (List.mem_cons_of_mem _ he)) hp

theorem removeExpiredTransactions_tidy (ht : Tidy p)
    (hnd : ∀ d ∈ p.transactions, (keyImages d.tx.inputs).Nodup) :
    Tidy (removeExpiredTransactions env now p) := by
  have hb : Tidy (removeExpiredTransactions env now p) ∧
      ∀ d ∈ (removeExpiredTransactions env now p).transactions, (keyImages d.tx.inputs).Nodup := by
    apply removeExpired_keeps
      (I := fun q => Tidy q ∧ ∀ d ∈ q.transactions, (keyImages d.tx.inputs).Nodup)
    · intro q id hq
      unfold recordDeleted
      split_ifs
      · exact hq
      · exact ⟨tidy_congr hq.1 rfl rfl,hq.2⟩
    · intro q d hq hd
      refine ⟨removeTransaction_tidy hq.1 hd (hq.2 d hd),fun e he => hq.2 e ?_⟩
      rw [removeTransaction_transactions] at he
      exact List.mem_of_mem_filter he
    · exact ht.distinct
    · exact fun d hd => hd
    · exact ⟨tidy_congr ht rfl rfl,hnd⟩
  exact hb.1

theorem admitTx_kept (env : Env) (now limit : UInt64) (bsz fee : UInt64) (fus : Bool)
    (used : Option BlockInfo) (ht : Tidy p) (hnd : (keyImages tx.inputs).Nodup)
    (hnew : haveTx id p = false) : ∃ tvc p', admitTx env now limit tx id bsz fee fus true used p =
      ((true, tvc), p') := by
  have hsto := (storeTx_tidy (d := details now tx id bsz fee true (used.getD .clear))
    ht hnd (.inl rfl) used.isSome fus).2 hnew
  exact ⟨_,_,Prod.ext (Prod.ext hsto rfl) rfl⟩

theorem addTx_kept (limit : UInt64) (bsz : UInt64) {used : Option BlockInfo} (ht : Tidy p)
    (hsem : Semantic env.ops tx.toTransactionPrefix)
    (hchk : checkInputsForPool env now m tx = .ok used) (hnew : haveTx id p = false) :
    ∃ tvc p', addTx env now m limit tx id bsz true p = .ok ((true, tvc), p') := by
  have hsup : checkInputsTypesSupported tx.toTransactionPrefix = true :=
    List.all_eq_true.mpr hsem.supported
  have hfun : ¬ getOutsMoneyAmount tx.toTransactionPrefix >
    getInputsMoneyAmount tx.toTransactionPrefix := hsem.funded
  obtain ⟨tvc,p',hsto⟩ := admitTx_kept env now limit bsz
    (getInputsMoneyAmount tx.toTransactionPrefix - getOutsMoneyAmount tx.toTransactionPrefix)
    (getInputsMoneyAmount tx.toTransactionPrefix - getOutsMoneyAmount tx.toTransactionPrefix == 0 &&
      isFusionTransaction env.currency tx bsz) used ht hsem.images hnew
  refine ⟨tvc,p',?_⟩
  unfold addTx
  simp only [hsup, hfun, Bool.not_true, Bool.false_and, Bool.false_eq_true, if_false, hchk]
  exact congrArg Except.ok hsto

end Orbis.ChainPoolIndex
