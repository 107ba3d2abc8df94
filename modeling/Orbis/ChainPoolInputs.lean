import Orbis.ChainPoolIndex

/-!
# The inputs that the pool has taken

Next to the key images the pool keeps the multisignature outputs that its
transactions spend. A transaction that comes back from a block may conflict
with others and is not entered into that table. The transactions from outside
never conflict with each other, and so removing one of them frees exactly its
own outputs.
-/

set_option autoImplicit false

namespace Orbis.ChainPoolInputs

open ChainTypes ChainSemantic ChainBlock ChainPool ChainPoolIndex

variable {p p' : Pool} {d : TransactionDetails} {ins : List TransactionInput} (id : Hash)
  (kb : Bool)

section Store

structure Stored (d : TransactionDetails) (p p' : Pool) : Prop where
  fresh : haveTx d.id p = false
  pool : p' = (addTransactionInputs d.id d.keptByBlock d.tx.inputs (insertDetails d p)).2

theorem storeTx_cases (d : TransactionDetails) (iv fus : Bool) (p : Pool) :
    (storeTx d iv fus p).2 = p ∨ Stored d p (storeTx d iv fus p).2 := by
  unfold storeTx
  by_cases hh : haveTx d.id p = true
  · rw [if_pos hh]
    exact .inl rfl
  · rw [if_neg hh]
    refine .inr ⟨by simpa using hh,?_⟩
    dsimp only
    split_ifs <;> rfl

variable {env : Env} {now : UInt64}

theorem addTx_cases {m : MainChain} {limit : UInt64} {tx : Transaction} {id : Hash} {bsz : UInt64}
    {keptByBlock added : Bool} {tvc : TxVerificationContext}
    (h : addTx env now m limit tx id bsz keptByBlock p = .ok ((added, tvc), p')) :
    p' = p ∨ ∃ d, Stored d p p' ∧ d.id = id ∧ d.tx = tx ∧ d.keptByBlock = keptByBlock ∧
      d.receiveTime = now ∧
      (keptByBlock = true ∨ haveSpentInputs tx p = false ∧ recentlyDeleted id p = false) := by
  rcases addTx_stores env now h with ⟨rfl,-⟩ | ⟨d,valid,fusion,hid,htx,hk,hsp,hs⟩
  · exact .inl rfl
  · have hsto := storeTx_cases d valid fusion p
    rw [hs] at hsto
    exact hsto.imp_right fun hsto => ⟨d,hsto,hid,htx,hk,hsp⟩

theorem keptByInputs_indexes (p : Pool) : KeptByInputs fun q =>
    (q.paymentIdIndex, q.timestampIndex) = (p.paymentIdIndex, p.timestampIndex) :=
  keptByInputs_of_rest (fun q => (q.paymentIdIndex, q.timestampIndex)) _ (fun _ _ _ => rfl)
    (fun _ _ => rfl) fun _ _ => rfl

theorem addTransactionInputs_indexes (inps : List TransactionInput) (p : Pool) :
    (addTransactionInputs id kb inps p).2.paymentIdIndex = p.paymentIdIndex ∧
      (addTransactionInputs id kb inps p).2.timestampIndex = p.timestampIndex :=
  Prod.mk.inj (addTransactionInputs_keeps (keptByInputs_indexes p) id kb inps rfl)

theorem removeTransactionInputs_indexes (inps : List TransactionInput) (p : Pool) :
    (removeTransactionInputs id kb inps p).paymentIdIndex = p.paymentIdIndex ∧
      (removeTransactionInputs id kb inps p).timestampIndex = p.timestampIndex :=
  Prod.mk.inj (removeTransactionInputs_keeps (keptByInputs_indexes p) id kb inps rfl)

theorem Stored.transactions (h : Stored d p p') : p'.transactions = p.transactions ++ [d] := by
  rw [h.pool, addTransactionInputs_transactions]
  rfl

abbrev records (p : Pool) : List (Hash × UInt64) := p.recentlyDeletedTransactions

theorem keptByInputs_records (p : Pool) : KeptByInputs fun q => records q = records p :=
  keptByInputs_of_rest records _ (fun _ _ _ => rfl) (fun _ _ => rfl) fun _ _ => rfl

theorem Stored.records (h : Stored d p p') : records p' = records p := by
  rw [h.pool]
  exact addTransactionInputs_keeps (keptByInputs_records p) _ _ _ rfl

theorem removeTransaction_records (d : TransactionDetails) (p : Pool) :
    records (removeTransaction env d p) = records p :=
  removeTransactionInputs_keeps (keptByInputs_records p) _ _ _ rfl

end Store

/-- The multisignature outputs that a transaction takes in the pool; one from a
block takes none. -/
def taken (d : TransactionDetails) : List (UInt64 × UInt32) :=
  if d.keptByBlock then [] else multisignatureSpends d.tx.inputs

theorem addTransactionInputs_spentOutputs
    (h : (addTransactionInputs id kb ins p).1 = true) :
    (addTransactionInputs id kb ins p).2.spentOutputs =
      if kb then p.spentOutputs
      else p.spentOutputs ∪ (multisignatureSpends ins).toFinset := by
  induction ins generalizing p with
  | nil => simp [addTransactionInputs]
  | cons inp _ ih =>
    cases inp with
    | base _ => exact ih h
    | key _ _ _ =>
      simp only [addTransactionInputs] at h ⊢
      split_ifs at h ⊢ with h1 h2 hk
      · rw [ih h, if_pos hk]
        rfl
      · rw [ih h, if_neg hk]
        rfl
    | multisignature _ _ _ =>
      simp only [addTransactionInputs] at h ⊢
      split_ifs at h ⊢ with hk
      · rw [ih h, if_pos hk]
      · rw [ih h, if_neg hk, multisignatureSpends_multisignature, List.toFinset_cons]
        ext place
        simp only [setSpentOutputs, Finset.mem_union, Finset.mem_insert]
        tauto

theorem removeTransactionInputs_spentOutputs (hnd : (keyImages ins).Nodup)
    (hh : ∀ im ∈ keyImages ins, id ∈ imageSet im p) :
    (removeTransactionInputs id kb ins p).spentOutputs =
      if kb then p.spentOutputs
      else p.spentOutputs \ (multisignatureSpends ins).toFinset := by
  induction ins generalizing p with
  | nil => simp [removeTransactionInputs]
  | cons inp _ ih =>
    cases inp with
    | base _ => exact ih hnd hh
    | key _ _ first =>
      rw [keyImages_key, List.nodup_cons] at hnd
      have hfst := hh first (by simp)
      have hs : (if (imageSet first p).erase id = ∅ then eraseImage first p
          else setImage first ((imageSet first p).erase id) p).spentOutputs = p.spentOutputs := by
        split_ifs <;> rfl
      simp only [removeTransactionInputs, hfst, not_true_eq_false, if_false]
      rw [ih hnd.2, hs]
      · rfl
      · intro o hoth
        rw [imageSet_release, if_neg]
        · exact hh o (by simp [hoth])
        · rintro rfl
          exact hnd.1 hoth
    | multisignature amt _ oi =>
      simp only [removeTransactionInputs]
      by_cases hk : kb = true
      · rw [if_pos hk, ih hnd hh, if_pos hk, if_pos hk]
      · rw [if_neg hk, ih (p := setSpentOutputs (p.spentOutputs.erase (amt, oi)) p)
          hnd hh, if_neg hk, if_neg hk, multisignatureSpends_multisignature,
          List.toFinset_cons]
        ext place
        simp only [setSpentOutputs, Finset.mem_sdiff, Finset.mem_insert, Finset.mem_erase]
        tauto

def Occupied (p : Pool) : Prop := ∀ image, p.spentKeyImages.lookup image ≠ some ∅

theorem occupied_setImage (h : Occupied p) (im : KeyImage) {ids : Finset Hash} (hids : ids ≠ ∅)
    : Occupied (setImage im ids p) := by
  intro o
  by_cases heq : o = im
  · subst heq
    rw [setImage, Finmap.lookup_insert]
    exact fun hs => hids (Option.some.inj hs)
  · rw [setImage, Finmap.lookup_insert_of_ne _ heq]
    exact h o

theorem occupied_eraseImage (h : Occupied p) (im : KeyImage) : Occupied (eraseImage im p) := by
  intro o
  by_cases heq : o = im
  · subst heq
    rw [eraseImage, Finmap.lookup_erase]
    intro hs
    cases hs
  · rw [eraseImage, Finmap.lookup_erase_ne heq]
    exact h o

theorem keptByInputs_occupied : KeptByInputs Occupied :=
  ⟨fun _ im _ hids h => occupied_setImage h im hids,
    fun _ im h => occupied_eraseImage h im,fun _ _ h => h⟩

def Apart (d e : TransactionDetails) : Prop :=
  d.keptByBlock = false → e.keptByBlock = false →
    (keyImages d.tx.inputs).Disjoint (keyImages e.tx.inputs) ∧
      (multisignatureSpends d.tx.inputs).Disjoint (multisignatureSpends e.tx.inputs)

instance : Std.Symm Apart where
  symm := fun _ _ h he hd => ⟨(h hd he).1.symm,(h hd he).2.symm⟩

structure Consistent (p : Pool) : Prop extends Tidy p where
  occupied : Occupied p
  outputs : ∀ place, place ∈ p.spentOutputs ↔ ∃ d ∈ p.transactions, place ∈ taken d
  apart : p.transactions.Pairwise Apart

theorem consistent_empty : Consistent Pool.empty where
  toTidy := tidy_empty
  occupied := by
    intro im h
    rw [Pool.empty, Finmap.lookup_empty] at h
    cases h
  outputs := by simp [Pool.empty]
  apart := List.Pairwise.nil

theorem mem_spentKeyImages (h : Consistent p) (im : KeyImage) :
    im ∈ p.spentKeyImages ↔ ∃ d ∈ p.transactions, im ∈ keyImages d.tx.inputs := by
  have hset : im ∈ p.spentKeyImages ↔ (imageSet im p).Nonempty := by
    rw [Finset.nonempty_iff_ne_empty, ← Finmap.lookup_isSome, imageSet]
    have ho := h.occupied im
    cases hl : p.spentKeyImages.lookup im with
    | none => simp
    | some ids =>
      rw [hl] at ho
      simpa using fun heq : ids = ∅ => ho (congrArg some heq)
  rw [hset]
  constructor
  · rintro ⟨id,hid⟩
    obtain ⟨d,hd,-,him⟩ := (h.images im id).mp hid
    exact ⟨d,hd,him⟩
  · rintro ⟨d,hd,him⟩
    exact ⟨d.id,(h.images im d.id).mpr ⟨d,hd,rfl,him⟩⟩

theorem mem_keyImages {im : KeyImage} :
    im ∈ keyImages ins ↔ ∃ amt idxs, .key amt idxs im ∈ ins := by
  rw [keyImages, List.mem_filterMap]
  constructor
  · rintro ⟨inp,hin,him⟩
    cases inp with
    | base _ => cases him
    | key amt idxs _ =>
      cases him
      exact ⟨amt,idxs,hin⟩
    | multisignature _ _ _ => cases him
  · rintro ⟨amt,idxs,hin⟩
    exact ⟨_,hin,rfl⟩

variable {place : UInt64 × UInt32}

theorem mem_multisignatureSpends : place ∈ multisignatureSpends ins ↔
      ∃ cnt, .multisignature place.1 cnt place.2 ∈ ins := by
  rw [multisignatureSpends, List.mem_filterMap]
  constructor
  · rintro ⟨inp,hin,hpl⟩
    cases inp with
    | base _ => cases hpl
    | key _ _ _ => cases hpl
    | multisignature _ cnt _ =>
      cases hpl
      exact ⟨cnt,hin⟩
  · rintro ⟨cnt,hin⟩
    exact ⟨_,hin,rfl⟩

theorem haveSpentInputs_iff (h : Consistent p) (tx : Transaction) : haveSpentInputs tx p = true ↔
      (∃ im ∈ keyImages tx.inputs, ∃ d ∈ p.transactions, im ∈ keyImages d.tx.inputs) ∨
      ∃ place ∈ multisignatureSpends tx.inputs, ∃ d ∈ p.transactions, place ∈ taken d := by
  rw [haveSpentInputs, List.any_eq_true]
  constructor
  · rintro ⟨inp,hin,hsp⟩
    cases inp with
    | base _ => cases hsp
    | key amt idxs im =>
      refine .inl ⟨im,mem_keyImages.mpr ⟨amt,idxs,hin⟩,?_⟩
      exact (mem_spentKeyImages h im).mp (of_decide_eq_true hsp)
    | multisignature amt cnt oi =>
      refine .inr ⟨(amt, oi),mem_multisignatureSpends.mpr ⟨cnt,hin⟩,?_⟩
      exact (h.outputs _).mp (of_decide_eq_true hsp)
  · rintro (⟨im,him,hd⟩ | ⟨place,hpl,hd⟩)
    · obtain ⟨amt,idxs,hin⟩ := mem_keyImages.mp him
      exact ⟨_,hin,decide_eq_true ((mem_spentKeyImages h im).mpr hd)⟩
    · obtain ⟨cnt,hin⟩ := mem_multisignatureSpends.mp hpl
      exact ⟨_,hin,decide_eq_true ((h.outputs place).mpr hd)⟩

theorem taken_of_outside (h : d.keptByBlock = false) :
    taken d = multisignatureSpends d.tx.inputs := by
  rw [taken, h]
  rfl

theorem outside_of_taken (h : place ∈ taken d) : d.keptByBlock = false := by
  rw [taken] at h
  split_ifs at h with hk
  · cases h
  · simpa using hk

theorem storeTx_stored {iv fus : Bool} (hsto : Stored d p p')
    (h : (storeTx d iv fus p).1.1 = true) :
    (addTransactionInputs d.id d.keptByBlock d.tx.inputs (insertDetails d p)).1 = true ∧
      (storeTx d iv fus p).2 = p' := by
  unfold storeTx at h ⊢
  simp only [hsto.fresh, Bool.false_eq_true, if_false] at h ⊢
  split_ifs at h ⊢ with had
  exact ⟨by simpa using had,hsto.pool.symm⟩

theorem Stored.consistent (hsto : Stored d p p') (h : Consistent p)
    (hnd : (keyImages d.tx.inputs).Nodup)
    (hf : d.keptByBlock = true ∨ haveSpentInputs d.tx p = false) : Consistent p' := by
  have hemp : d.keptByBlock = true ∨ ∀ im ∈ keyImages d.tx.inputs, imageSet im p = ∅ := by
    refine hf.imp_right fun hn im him => ?_
    by_contra hs
    obtain ⟨id,hid⟩ := Finset.nonempty_iff_ne_empty.mpr hs
    obtain ⟨e,he,-,hmem⟩ := (h.images im id).mp hid
    rw [(haveSpentInputs_iff h d.tx).mpr (.inl ⟨im,him,e,he,hmem⟩)] at hn
    cases hn
  obtain ⟨ht,hsu⟩ := storeTx_tidy h.toTidy hnd hemp true true
  obtain ⟨had,hp⟩ := storeTx_stored hsto (hsu hsto.fresh)
  refine ⟨hp ▸ ht,?_,?_,?_⟩
  · rw [hsto.pool]
    exact addTransactionInputs_keeps keptByInputs_occupied _ _ _ (p := insertDetails d p) h.occupied
  · intro place
    have hold : place ∈ (insertDetails d p).spentOutputs ↔ ∃ e ∈ p.transactions, place ∈ taken e :=
      h.outputs place
    have hnew : place ∈ p'.spentOutputs ↔
        place ∈ (insertDetails d p).spentOutputs ∨ place ∈ taken d := by
      rw [hsto.pool, addTransactionInputs_spentOutputs _ _ had, taken]
      split_ifs
      · simp
      · rw [Finset.mem_union, List.mem_toFinset]
    rw [hnew, hold, hsto.transactions]
    simp only [List.mem_append, List.mem_singleton]
    constructor
    · rintro (⟨e,he,hpl⟩ | hpl)
      · exact ⟨e,.inl he,hpl⟩
      · exact ⟨d,.inr rfl,hpl⟩
    · rintro ⟨e,he | rfl,hpl⟩
      · exact .inl ⟨e,he,hpl⟩
      · exact .inr hpl
  · rw [hsto.transactions, List.pairwise_append]
    refine ⟨h.apart,List.pairwise_singleton _ _,?_⟩
    intro e he o hoth hoe hod
    rw [List.mem_singleton.mp hoth] at hod ⊢
    rcases hf with hk | hn
    · rw [hod] at hk
      cases hk
    · refine ⟨?_,?_⟩
      · intro im hmem him
        rw [(haveSpentInputs_iff h d.tx).mpr (.inl ⟨im,him,e,he,hmem⟩)] at hn
        cases hn
      · intro place hmem hpl
        rw [← taken_of_outside hoe] at hmem
        rw [(haveSpentInputs_iff h d.tx).mpr (.inr ⟨place,hpl,e,he,hmem⟩)] at hn
        cases hn

theorem removeTransaction_consistent {env : Env} (h : Consistent p) (hd : d ∈ p.transactions)
    (hnd : (keyImages d.tx.inputs).Nodup) : Consistent (removeTransaction env d p) := by
  have htxs := removeTransaction_transactions env d p
  refine ⟨removeTransaction_tidy h.toTidy hd hnd,?_,?_,?_⟩
  · exact removeTransactionInputs_keeps keptByInputs_occupied _ _ _ h.occupied
  · intro place
    have hsp : (removeTransaction env d p).spentOutputs =
        if d.keptByBlock then p.spentOutputs
        else p.spentOutputs \ (multisignatureSpends d.tx.inputs).toFinset :=
      removeTransactionInputs_spentOutputs d.id d.keptByBlock hnd
        fun im him => (h.images im d.id).mpr ⟨d,hd,rfl,him⟩
    have hrem : place ∈ (removeTransaction env d p).spentOutputs ↔
        place ∈ p.spentOutputs ∧ place ∉ taken d := by
      rw [hsp, taken]
      split_ifs
      · simp
      · rw [Finset.mem_sdiff, List.mem_toFinset]
    rw [hrem, h.outputs, htxs]
    simp only [List.mem_filter, bne_iff_ne, ne_eq]
    constructor
    · rintro ⟨⟨e,he,hpl⟩,hf⟩
      refine ⟨e,⟨he,?_⟩,hpl⟩
      intro hid
      rw [List.inj_on_of_nodup_map h.distinct he hd hid] at hpl
      exact hf hpl
    · rintro ⟨e,⟨he,hid⟩,hpl⟩
      refine ⟨⟨e,he,hpl⟩,?_⟩
      -- a second transaction from outside cannot take the same output
      intro hown
      have hne : e ≠ d := fun heq => hid (congrArg TransactionDetails.id heq)
      have ha := h.apart.forall he hd hne
      have hdi := (ha (outside_of_taken hpl) (outside_of_taken hown)).2
      rw [taken_of_outside (outside_of_taken hpl)] at hpl
      rw [taken_of_outside (outside_of_taken hown)] at hown
      exact hdi hpl hown
  · rw [htxs]
    exact h.apart.sublist List.filter_sublist

end Orbis.ChainPoolInputs
