import Orbis.ChainTables

/-!
# A transaction leaves the tables as it found them

For a transaction that is new to the tables, whose key images are unspent
and whose multisignature inputs point at unused outputs, `pushTransaction`
succeeds with a closed result, and `popTransaction` undoes exactly that
result. The tables must hold no empty vector, which every push and pop
maintains.
-/

set_option autoImplicit false

namespace Orbis.ChainUndo

open FaultState VectorTable ChainTypes ChainSemantic ChainTables

variable {ins : List TransactionInput} {t : Tables} {tx : Transaction} {hash : Hash} {env : Env}
variable {idx : TransactionIndex} {blk : BlockEntry} {e : TransactionEntry}

def places (inputs : List TransactionInput) : List (UInt64 × ℕ) :=
  (multisignatureSpends inputs).map fun spend => (spend.1, spend.2.toNat)

def spendAll (images : List KeyImage) (t : Tables) : Tables :=
  { t with spentKeys := t.spentKeys ∪ images.toFinset }

def setUsedAll (used : Bool) (ps : List (UInt64 × ℕ)) (t : Tables) : Tables :=
  { t with multisignatureOutputs := modifyAll t.multisignatureOutputs ps (setUsed used) }

def consumeInputs (inputs : List TransactionInput) (t : Tables) : Tables :=
  { t with
    spentKeys := t.spentKeys ∪ (keyImages inputs).toFinset
    multisignatureOutputs := modifyAll t.multisignatureOutputs (places inputs) (setUsed true) }

def releaseInputs (inputs : List TransactionInput) (t : Tables) : Tables :=
  { t with
    spentKeys := t.spentKeys \ (keyImages inputs).toFinset
    multisignatureOutputs := modifyAll t.multisignatureOutputs (places inputs) (setUsed false) }

structure Spendable (t : Tables) (inputs : List TransactionInput) : Prop where
  images : (keyImages inputs).Nodup
  unspent : ∀ image ∈ keyImages inputs, image ∉ t.spentKeys
  spends : (multisignatureSpends inputs).Nodup
  unused : ∀ spend ∈ multisignatureSpends inputs, ∃ usage,
    (bucket t.multisignatureOutputs spend.1)[spend.2.toNat]? = some usage ∧
      usage.isUsed = false

structure Admissible (t : Tables) (tx : Transaction) (hash : Hash) : Prop where
  fresh : hash ∉ t.transactionMap
  spendable : Spendable t tx.inputs
  short : tx.outputs.length < 2 ^ 16

structure Compact (t : Tables) : Prop where
  outputs : Tight t.outputs
  multisignatureOutputs : Tight t.multisignatureOutputs

def applyTransaction (env : Env) (tx : Transaction) (hash : Hash) (index : TransactionIndex)
    (t : Tables) : Tables :=
  addPaymentId env tx
    (pushOutputs index 0 tx.outputs (consumeInputs tx.inputs (insertTransaction hash index t))).1

theorem places_nodup (h : (multisignatureSpends ins).Nodup) : (places ins).Nodup := by
  apply h.map
  rintro ⟨a,i⟩ ⟨b,j⟩ hij
  simp only [Prod.mk.injEq] at hij
  rw [hij.1, UInt32.toNat_inj.mp hij.2]

theorem Spendable.inside (h : Spendable t ins) : Inside t.multisignatureOutputs (places ins) := by
  intro place hpl
  obtain ⟨spend,hspd,rfl⟩ := List.mem_map.mp hpl
  obtain ⟨_,hus,-⟩ := h.unused spend hspd
  exact (List.getElem?_eq_some_iff.mp hus).1

theorem spendKeyImages_ok (done inps : List TransactionInput) (t : Tables)
    (hims : (keyImages inps).Nodup) (hu : ∀ im ∈ keyImages inps, im ∉ t.spentKeys) :
    spendKeyImages done inps t = .ok true (spendAll (keyImages inps) t) := by
  induction inps generalizing done t with
  | nil => simp [spendKeyImages, spendAll]
  | cons inp rest ih =>
    cases inp with
    | base _ => exact ih _ t hims hu
    | multisignature _ _ _ => exact ih _ t hims hu
    | key _ _ im =>
      rw [keyImages_key, List.nodup_cons] at hims
      rw [keyImages_key] at hu
      have hnot : im ∉ t.spentKeys := hu im (by simp)
      have hr : ∀ o ∈ keyImages rest, o ∉ (spendKeyImage im t).spentKeys := by
        intro o hoth
        have hne : o ≠ im := fun heq => hims.1 (heq ▸ hoth)
        have hold := hu o (List.mem_cons_of_mem _ hoth)
        simp [spendKeyImage, hne, hold]
      simp only [spendKeyImages]
      rw [get_bind]
      simp only [hnot, if_false]
      rw [modify_bind, ih _ _ hims.2 hr]
      simp [spendAll, spendKeyImage]

variable {used : Bool} {amt : UInt64} {oi : UInt32}

theorem markUsed_ok (h : oi.toNat < (bucket t.multisignatureOutputs amt).length) :
    markUsed used amt oi t = .ok ⟨⟩ (setUsedAt used amt oi t) := by
  unfold markUsed
  rw [get_bind, if_pos h]
  rfl

theorem inside_setUsedAt {ps : List (UInt64 × ℕ)} (h : Inside t.multisignatureOutputs ps) :
    Inside (setUsedAt used amt oi t).multisignatureOutputs ps := by
  intro p hp
  have hlen := length_bucket_modifyAll t.multisignatureOutputs [(amt, oi.toNat)] (setUsed used) p.1
  simp only [modifyAll, List.foldl_cons, List.foldl_nil] at hlen
  simp only [setUsedAt]
  rw [hlen]
  exact h p hp

theorem markInputs_ok (inps : List TransactionInput) (t : Tables)
    (h : Inside t.multisignatureOutputs (places inps)) :
    markInputs inps t = .ok ⟨⟩ (setUsedAll true (places inps) t) := by
  induction inps generalizing t with
  | nil => simp [markInputs, setUsedAll, places, modifyAll]
  | cons inp rest ih =>
    cases inp with
    | base _ => exact ih t h
    | key _ _ _ => exact ih t h
    | multisignature amt _ idx =>
      have hh := h (amt, idx.toNat) (by simp [places])
      have hr : Inside t.multisignatureOutputs (places rest) :=
        fun p hp => h p (List.mem_cons_of_mem _ hp)
      simp only [markInputs]
      rw [bind_of_ok (markUsed_ok hh), ih _ (inside_setUsedAt hr)]
      simp [setUsedAll, setUsedAt, places, modifyAll]

theorem popInputs_ok (h : Inside t.multisignatureOutputs (places ins)) :
    popInputs ins t = .ok ⟨⟩ (releaseInputs ins t) := by
  induction ins generalizing t with
  | nil => simp [popInputs, releaseInputs, places, modifyAll]
  | cons inp rest ih =>
    cases inp with
    | base _ => exact ih h
    | key _ _ im =>
      simp only [popInputs]
      rw [modify_bind, @ih (unspendKeyImage im t) h]
      simp [releaseInputs, unspendKeyImage, places, Finset.sdiff_insert, Finset.erase_sdiff_comm]
    | multisignature amt _ idx =>
      have hh := h (amt, idx.toNat) (by simp [places])
      have hr : Inside t.multisignatureOutputs (places rest) :=
        fun p hp => h p (List.mem_cons_of_mem _ hp)
      simp only [popInputs]
      rw [bind_of_ok (markUsed_ok hh), ih (inside_setUsedAt hr)]
      simp [releaseInputs, setUsedAt, places, modifyAll]

variable (ix : TransactionIndex)

theorem pushOutput_rest (op : UInt16) (out : TransactionOutput)
    (t : Tables) : (pushOutput ix op out t).transactionMap = t.transactionMap ∧
    (pushOutput ix op out t).spentKeys = t.spentKeys ∧
    (pushOutput ix op out t).paymentIdIndex = t.paymentIdIndex := by
  unfold pushOutput
  cases out.target <;> exact ⟨rfl,rfl,rfl⟩

theorem compact_pushOutput (op : UInt16) (out : TransactionOutput)
    (h : Compact t) : Compact (pushOutput ix op out t) := by
  unfold pushOutput
  cases out.target with
  | key _ => exact ⟨tight_pushBack h.outputs _ _,h.multisignatureOutputs⟩
  | multisignature _ _ => exact ⟨h.outputs,tight_pushBack h.multisignatureOutputs _ _⟩

theorem popOutput_pushOutput (n : ℕ) (hn : n < 2 ^ 16) (out : TransactionOutput) (h : Compact t) :
    popOutput ix n out (pushOutput ix (UInt16.ofNat n) out t) = t := by
  have hc : (UInt16.ofNat n).toNat = n := UInt16.toNat_ofNat_of_lt' hn
  unfold popOutput pushOutput
  cases out.target with
  | key _ =>
    simp only [bucket_pushBack, List.getLast?_concat, hc, and_self, if_true]
    rw [dropBack_pushBack h.outputs]
  | multisignature _ _ =>
    simp only [bucket_pushBack, List.getLast?_concat, hc, and_self, if_true]
    rw [dropBack_pushBack h.multisignatureOutputs]

theorem pushOutputs_rest (op : UInt16) (outs : List TransactionOutput)
    (t : Tables) : (pushOutputs ix op outs t).1.transactionMap = t.transactionMap ∧
    (pushOutputs ix op outs t).1.spentKeys = t.spentKeys ∧
    (pushOutputs ix op outs t).1.paymentIdIndex = t.paymentIdIndex := by
  induction outs generalizing op t with
  | nil => exact ⟨rfl,rfl,rfl⟩
  | cons out _ ih =>
    obtain ⟨hmap,hk,hids⟩ := ih (op + 1) (pushOutput ix op out t)
    obtain ⟨hmap',hk',hids'⟩ := pushOutput_rest ix op out t
    exact ⟨hmap.trans hmap',hk.trans hk',hids.trans hids'⟩

theorem compact_pushOutputs (op : UInt16) (outs : List TransactionOutput)
    (h : Compact t) : Compact (pushOutputs ix op outs t).1 := by
  induction outs generalizing op t with
  | nil => exact h
  | cons out _ ih => exact ih _ (compact_pushOutput ix op out h)

theorem popOutputs_pushOutputs_from (n : ℕ) (outs : List TransactionOutput)
    (hn : n + outs.length ≤ 2 ^ 16) (h : Compact t) :
    (outs.zipIdx n).foldr (fun out t => popOutput ix out.2 out.1 t)
      (pushOutputs ix (UInt16.ofNat n) outs t).1 = t := by
  induction outs generalizing n t with
  | nil => rfl
  | cons out _ ih =>
    rw [List.length_cons] at hn
    have hne : UInt16.ofNat n + 1 = UInt16.ofNat (n + 1) := by
      rw [UInt16.ofNat_add]
      rfl
    rw [List.zipIdx_cons, List.foldr_cons]
    simp only [pushOutputs]
    rw [hne, ih (n + 1) (by omega) (compact_pushOutput ix _ out h)]
    exact popOutput_pushOutput ix n (by omega) out h

theorem popOutputs_pushOutputs (outs : List TransactionOutput) (hsh : outs.length < 2 ^ 16)
    (h : Compact t) : popOutputs ix outs (pushOutputs ix 0 outs t).1 = t :=
  popOutputs_pushOutputs_from ix 0 outs (by omega) h

theorem compact_consumeInputs (h : Compact t) (hin : Inside t.multisignatureOutputs (places ins))
    : Compact (consumeInputs ins t) :=
  ⟨h.outputs,tight_modifyAll h.multisignatureOutputs _ hin⟩

theorem releaseInputs_consumeInputs (hspd : Spendable t ins) (hcpt : Compact t) :
    releaseInputs ins (consumeInputs ins t) = t := by
  have hk : (t.spentKeys ∪ (keyImages ins).toFinset) \ (keyImages ins).toFinset = t.spentKeys := by
    rw [Finset.union_sdiff_right, Finset.sdiff_eq_self_iff_disjoint, Finset.disjoint_right]
    intro im him
    exact hspd.unspent im (List.mem_toFinset.mp him)
  have hu : modifyAll (modifyAll t.multisignatureOutputs (places ins) (setUsed true))
      (places ins) (setUsed false) = t.multisignatureOutputs := by
    apply modifyAll_modifyAll hcpt.multisignatureOutputs (places_nodup hspd.spends) hspd.inside
    intro place hpl usage hus
    obtain ⟨spend,hmem,rfl⟩ := List.mem_map.mp hpl
    obtain ⟨_,hfd,hf⟩ := hspd.unused spend hmem
    rw [hfd, Option.some.injEq] at hus
    subst hus
    simp [setUsed, ← hf]
  simp only [releaseInputs, consumeInputs, hk, hu]

theorem Spendable.insertTransaction (h : Spendable t ins) (hash : Hash)
    (ix : TransactionIndex) : Spendable (ChainTables.insertTransaction hash ix t) ins :=
  ⟨h.images,h.unspent,h.spends,h.unused⟩

theorem Compact.insertTransaction (h : Compact t) (hash : Hash) (ix : TransactionIndex)
    : Compact (ChainTables.insertTransaction hash ix t) :=
  ⟨h.outputs,h.multisignatureOutputs⟩

theorem compact_entered (hadm : Admissible t tx hash)
    (hcpt : Compact t) : Compact (consumeInputs tx.inputs (insertTransaction hash ix t)) :=
  compact_consumeInputs (hcpt.insertTransaction hash ix)
    (hadm.spendable.insertTransaction hash ix).inside

theorem compact_applyTransaction (hadm : Admissible t tx hash) (hcpt : Compact t)
    : Compact (applyTransaction env tx hash idx t) := by
  have hp := compact_pushOutputs idx 0 tx.outputs (compact_entered idx hadm hcpt)
  exact ⟨hp.outputs,hp.multisignatureOutputs⟩

theorem pushTransaction_fresh (hent : blk.transactions[idx.transaction.toNat]? = some e)
    (hfr : hash ∉ t.transactionMap) (hspb : Spendable t e.tx.inputs) :
    pushTransaction env blk hash idx t =
      let entered := consumeInputs e.tx.inputs (insertTransaction hash idx t)
      if 2 ^ 16 ≤ e.tx.outputs.length then .error .endless entered
      else .ok (true, setGlobalOutputIndexes blk idx.transaction.toNat e
          (pushOutputs idx 0 e.tx.outputs entered).2)
        (applyTransaction env e.tx hash idx t) := by
  have hspb := hspb.insertTransaction hash idx
  have hd : checkMultisignatureInputsDiff e.tx.toTransactionPrefix = true := by
    simp [checkMultisignatureInputsDiff, hspb.spends]
  have hspd := spendKeyImages_ok [] e.tx.inputs _ hspb.images hspb.unspent
  have hm := markInputs_ok e.tx.inputs
    (spendAll (keyImages e.tx.inputs) (insertTransaction hash idx t)) hspb.inside
  unfold pushTransaction
  rw [get_bind, if_neg hfr, bind_of_ok (set_run t _), hent]
  simp only [hd, Bool.not_true, Bool.false_eq_true, if_false]
  rw [bind_of_ok hspd]
  simp only [Bool.not_true, Bool.false_eq_true, if_false]
  rw [bind_of_ok hm]
  split_ifs <;> rfl

theorem pushTransaction_ok (hent : blk.transactions[idx.transaction.toNat]? = some e)
    (hadm : Admissible t e.tx hash) : pushTransaction env blk hash idx t = .ok
      (true, setGlobalOutputIndexes blk idx.transaction.toNat e (pushOutputs idx 0 e.tx.outputs
          (consumeInputs e.tx.inputs (insertTransaction hash idx t))).2)
      (applyTransaction env e.tx hash idx t) := by
  rw [pushTransaction_fresh hent hadm.fresh hadm.spendable]
  exact if_neg (not_le.mpr hadm.short)

theorem pushTransaction_endless (env : Env)
    (hent : blk.transactions[idx.transaction.toNat]? = some e) (hfr : hash ∉ t.transactionMap)
    (hspb : Spendable t e.tx.inputs) (hl : 2 ^ 16 ≤ e.tx.outputs.length) :
    ∃ u, pushTransaction env blk hash idx t = .error .endless u := by
  rw [pushTransaction_fresh hent hfr hspb]
  exact ⟨_,if_pos hl⟩

theorem popOutput_addPaymentId {n : ℕ} {out : TransactionOutput} :
    popOutput idx n out (addPaymentId env tx t) = addPaymentId env tx (popOutput idx n out t) := by
  unfold popOutput addPaymentId
  cases out.target with
  | key _ =>
    dsimp only
    cases (bucket t.outputs out.amount).getLast? with
    | none => rfl
    | some _ =>
      dsimp only
      split_ifs <;> rfl
  | multisignature _ _ =>
    dsimp only
    cases (bucket t.multisignatureOutputs out.amount).getLast? with
    | none => rfl
    | some _ =>
      dsimp only
      split_ifs <;> rfl

theorem popOutputs_addPaymentId {outs : List TransactionOutput} :
    popOutputs idx outs (addPaymentId env tx t) = addPaymentId env tx (popOutputs idx outs t) := by
  unfold popOutputs
  induction outs.zipIdx with
  | nil => rfl
  | cons _ _ ih => rw [List.foldr_cons, List.foldr_cons, ih, popOutput_addPaymentId]

theorem eraseTransaction_insertTransaction (hfr : hash ∉ t.transactionMap) :
    eraseTransaction hash (insertTransaction hash ix t) = t := by
  have hmap : (t.transactionMap.insert hash ix).erase hash = t.transactionMap := by
    apply Finmap.ext_lookup
    intro o
    by_cases h : o = hash
    · rw [h, Finmap.lookup_erase, Finmap.lookup_eq_none.mpr hfr]
    · rw [Finmap.lookup_erase_ne h, Finmap.lookup_insert_of_ne _ h]
  simp only [eraseTransaction, insertTransaction, hmap]

/-- The amounts of the multisignature outputs are in the table already, so
that taking the outputs out again empties none of them. -/
def Lasting (t : Tables) (tx : Transaction) : Prop :=
  ∀ out ∈ tx.outputs, isKey out.target = false →
    bucket t.multisignatureOutputs out.amount ≠ []

instance (t : Tables) (tx : Transaction) : Decidable (Lasting t tx) :=
  inferInstanceAs (Decidable (∀ out ∈ tx.outputs, _))

theorem erasesAmount_eq_false {t' u : Tables} (hlast : Lasting t tx)
    (h : ∀ amount, (bucket u.multisignatureOutputs amount).length =
      (bucket t.multisignatureOutputs amount).length) :
    erasesAmount tx.outputs t' u = false := by
  rw [erasesAmount, List.any_eq_false]
  intro out hout
  by_cases hms : isKey out.target = false
  · have hne : bucket u.multisignatureOutputs out.amount ≠ [] := by
      rw [← List.length_pos_iff, h]
      exact List.length_pos_iff.mpr (hlast out hout hms)
    simp [hne]
  · simp [hms]

/-- Undo of a push: the outputs are still the last entries under their
amounts, so none of the consistency checks of the source skips one. -/
theorem popTransaction_applyTransaction (hadm : Admissible t tx hash) (hcpt : Compact t) :
    popTransaction env tx hash (applyTransaction env tx hash idx t) = .ok ⟨⟩ t ∨
      ¬ Lasting t tx ∧ ∃ left, popTransaction env tx hash (applyTransaction env tx hash idx t) =
        .error .erased left := by
  have hen := compact_entered idx hadm hcpt
  have hl : (applyTransaction env tx hash idx t).transactionMap.lookup hash = some idx := by
    have hr := (pushOutputs_rest idx 0 tx.outputs
      (consumeInputs tx.inputs (insertTransaction hash idx t))).1
    simp only [applyTransaction, addPaymentId, hr]
    exact Finmap.lookup_insert _
  have ho : popOutputs idx tx.outputs (applyTransaction env tx hash idx t) =
      addPaymentId env tx (consumeInputs tx.inputs (insertTransaction hash idx t)) := by
    unfold applyTransaction
    rw [popOutputs_addPaymentId, popOutputs_pushOutputs idx tx.outputs hadm.short hen]
  have hisd : Inside (addPaymentId env tx
      (consumeInputs tx.inputs (insertTransaction hash idx t))).multisignatureOutputs
      (places tx.inputs) := by
    intro place hpl
    simp only [addPaymentId, consumeInputs, insertTransaction]
    rw [length_bucket_modifyAll]
    exact hadm.spendable.inside place hpl
  have hrel : releaseInputs tx.inputs (addPaymentId env tx
      (consumeInputs tx.inputs (insertTransaction hash idx t))) =
      addPaymentId env tx (insertTransaction hash idx t) := by
    conv_rhs => rw [← releaseInputs_consumeInputs (hadm.spendable.insertTransaction hash idx)
      (hcpt.insertTransaction hash idx)]
    rfl
  have hre : removePaymentId env tx (addPaymentId env tx (insertTransaction hash idx t)) =
      insertTransaction hash idx t := by
    simp only [removePaymentId, addPaymentId, Multiset.add_sub_cancel_right]
  unfold popTransaction
  rw [get_bind, hl]
  dsimp only
  rw [ho]
  by_cases her : erasesAmount tx.outputs (applyTransaction env tx hash idx t)
      (addPaymentId env tx (consumeInputs tx.inputs (insertTransaction hash idx t))) = true
  · refine .inr ⟨fun hlast => ?_,_,by rw [if_pos her]; rfl⟩
    rw [erasesAmount_eq_false hlast fun amount => length_bucket_modifyAll _ _ _ amount] at her
    cases her
  · left
    rw [if_neg her, bind_of_ok (set_run _ _), bind_of_ok (popInputs_ok hisd), hrel, modify_bind, hre,
      modify_run, eraseTransaction_insertTransaction idx hadm.fresh]

end Orbis.ChainUndo
