import Mathlib.Data.List.TakeWhile
import Orbis.ChainLedger

/-!
# Keys and heights behind the inputs

The signatures of a multisignature input are matched with the keys of its
output in one pass over the keys, which never goes back. The check of a key
input reports the block of the last ring member as the highest one it used,
since the offsets of a ring are differences and so should not fall; but they
are added up in 32 bits.
-/

set_option autoImplicit false

namespace Orbis.ChainRing

open FaultState VectorTable ChainTypes ChainSemantic ChainTables ChainInputs ChainBlock
open ChainSignature ChainNode ChainRun ChainLedger

variable {env : Env} {now : UInt64} {blocks : List BlockEntry} {t : Tables}

section Multisignatures

def Assignable (env : Env) (prefixHash : Hash) (keys : List PublicKey) (sigs : List Signature) :
    Prop :=
  ∃ place : ℕ → ℕ, StrictMono place ∧ ∀ i sig, sigs[i]? = some sig →
    ∃ key, keys[place i]? = some key ∧ env.ops.checkSignature prefixHash key sig = .ok true

variable {prefixHash ph : Hash} {key : PublicKey} {keys : List PublicKey} {sig : Signature}
  {sigs : List Signature}

theorem assignable_nil : Assignable env ph keys [] := ⟨id,strictMono_id,by simp⟩

theorem not_assignable_nil : ¬Assignable env ph [] (sig :: sigs) := by
  rintro ⟨_,-,h⟩
  obtain ⟨_,hkey,-⟩ := h 0 sig rfl
  cases hkey

theorem assignable_tail {place : ℕ → ℕ} (hm : StrictMono place) (hpos : ∀ i, 0 < place i)
    (h : ∀ i sig, sigs[i]? = some sig → ∃ found, (key :: keys)[place i]? = some found ∧
      env.ops.checkSignature ph found sig = .ok true) : Assignable env ph keys sigs := by
  refine ⟨fun i => place i - 1,fun i j hij => ?_,fun i sig hsig => ?_⟩
  · exact Nat.sub_lt_sub_right (hpos i) (hm hij)
  · obtain ⟨found,hfd,hvd⟩ := h i sig hsig
    rw [← Nat.succ_pred_eq_of_pos (hpos i), List.getElem?_cons_succ] at hfd
    exact ⟨found,hfd,hvd⟩

theorem assignable_take (h : env.ops.checkSignature ph key sig = .ok true) :
    Assignable env ph (key :: keys) (sig :: sigs) ↔ Assignable env ph keys sigs := by
  constructor
  · rintro ⟨place,hm,hpl⟩
    exact assignable_tail (hm.comp (add_left_strictMono (a := 1)))
      (fun i => (Nat.zero_le (place i)).trans_lt (hm i.lt_succ_self))
      fun i o hoth => hpl (i + 1) o hoth
  · rintro ⟨place,hm,hpl⟩
    refine ⟨fun i => Nat.casesOn i 0 fun j => place j + 1,strictMono_nat_of_lt_succ fun i => ?_,
      fun i o hoth => ?_⟩
    · cases i with
      | zero => exact Nat.succ_pos _
      | succ j => exact Nat.succ_lt_succ (hm j.lt_succ_self)
    · cases i with
      | zero =>
        cases hoth
        exact ⟨key,rfl,h⟩
      | succ j => exact hpl j o hoth

theorem assignable_skip (h : env.ops.checkSignature ph key sig ≠ .ok true) :
    Assignable env ph (key :: keys) (sig :: sigs) ↔ Assignable env ph keys (sig :: sigs) := by
  constructor
  · rintro ⟨place,hm,hpl⟩
    have hfst : 0 < place 0 := by
      refine Nat.pos_of_ne_zero fun hz => ?_
      obtain ⟨_,hfd,hvd⟩ := hpl 0 sig rfl
      rw [hz] at hfd
      cases hfd
      exact h hvd
    exact assignable_tail hm (fun i => hfst.trans_le (hm.monotone i.zero_le)) hpl
  · rintro ⟨place,hm,hpl⟩
    exact ⟨fun i => place i + 1,fun i j hij => Nat.succ_lt_succ (hm hij),hpl⟩

theorem checkMultisignatures_iff : checkMultisignatures env ph keys sigs = .ok true ↔
    Assignable env ph (keys.takeWhile env.ops.checkKey) sigs := by
  induction keys generalizing sigs with
  | nil =>
    cases sigs with
    | nil => exact iff_of_true rfl assignable_nil
    | cons _ _ => exact iff_of_false (by simp [checkMultisignatures]) not_assignable_nil
  | cons key _ ih =>
    cases sigs with
    | nil => exact iff_of_true rfl assignable_nil
    | cons sig _ =>
      rw [checkMultisignatures]
      cases hchk : env.ops.checkSignature ph key sig with
      | error _ =>
        rw [List.takeWhile_cons, (env.ops.checkSignature_error hchk).2]
        exact iff_of_false (by simp [bind, Except.bind]) not_assignable_nil
      | ok valid =>
        have hkey : env.ops.checkKey key = true := by
          by_contra hbad
          simp only [CurveOps.checkKey, Option.not_isSome_iff_eq_none] at hbad
          simp [CurveOps.checkSignature, hbad] at hchk
        rw [List.takeWhile_cons_of_pos hkey]
        cases valid with
        | true => exact ih.trans (assignable_take hchk).symm
        | false => exact ih.trans (assignable_skip (by rw [hchk]; simp)).symm

/-- The signatures of an unspent and unlocked output are accepted exactly if
they can be assigned to its keys in increasing order, unless the assignments
need keys behind one that is no curve point: that key ends the process. -/
theorem validateInput_assignable_iff {amount : UInt64} {signatureCount : UInt8}
    {outputIndex : UInt32} {usage : MultisignatureOutputUsage} {entry : TransactionEntry}
    {out : TransactionOutput}
    (husage : (bucket t.multisignatureOutputs amount)[outputIndex.toNat]? = some usage)
    (hunspent : usage.isUsed = false)
    (hentry : transactionByIndex blocks usage.transactionIndex = .ok entry)
    (hunlocked : isTxSpendtimeUnlocked env now blocks entry.tx.unlockTime = true)
    (hout : entry.tx.outputs[usage.outputIndex.toNat]? = some out)
    (htarget : out.target = .multisignature keys signatureCount) :
    ((validateInput env now blocks t prefixHash amount signatureCount outputIndex sigs = .ok true ↔
        Assignable env prefixHash keys sigs) ↔ (Assignable env prefixHash keys sigs →
        Assignable env prefixHash (keys.takeWhile env.ops.checkKey) sigs)) ∧
    ((∀ key ∈ keys, env.ops.checkKey key = true) →
      (validateInput env now blocks t prefixHash amount signatureCount outputIndex sigs =
        .ok true ↔ Assignable env prefixHash keys sigs)) := by
  have hl : validateInput env now blocks t prefixHash amount signatureCount outputIndex sigs =
      .ok true ↔ Assignable env prefixHash (keys.takeWhile env.ops.checkKey) sigs := by
    rw [← checkMultisignatures_iff]
    simp [validateInput, husage, hunspent, hentry, hunlocked, hout, htarget, bind, Except.bind]
  have hle : Assignable env prefixHash (keys.takeWhile env.ops.checkKey) sigs →
      Assignable env prefixHash keys sigs := by
    rintro ⟨place,hm,hpl⟩
    refine ⟨place,hm,fun i sig hsig => ?_⟩
    obtain ⟨key,hkey,hvd⟩ := hpl i sig hsig
    refine ⟨key,?_,hvd⟩
    rw [← List.takeWhile_append_dropWhile (p := env.ops.checkKey) (l := keys),
      List.getElem?_append_left (List.getElem?_eq_some_iff.mp hkey).1, hkey]
  rw [hl]
  refine ⟨⟨fun h => h.mpr,fun h => ⟨hle,h⟩⟩,fun hk => ?_⟩
  rw [List.takeWhile_eq_self_iff.mpr hk]

def sharedBy (keys : List PublicKey) : Transaction :=
  mint 2 1 5297658301515 (.multisignature keys 1)

def sharedNode (keys : List PublicKey) : Node :=
  left (addNewBlock sampleEnv 111 0 (mine 2 1 111 (sharedBy keys) []) sampleNode)

theorem validateInput_assignable_sample :
    validateInput sampleEnv 222 (sharedNode [1, 2]).main.blocks (sharedNode [1, 2]).main.tables 0
      5297658301515 1 0 [⟨0, 0⟩] = .ok true ↔ Assignable sampleEnv 0 [1, 2] [⟨0, 0⟩] := by
  have hus : (bucket (sharedNode [1, 2]).main.tables.multisignatureOutputs 5297658301515)[0]? =
      some ⟨⟨1, 0⟩, 0, false⟩ := by decide
  have hent : transactionByIndex (sharedNode [1, 2]).main.blocks ⟨1, 0⟩ =
      .ok ⟨sharedBy [1, 2], [0]⟩ := by
    decide
  exact (validateInput_assignable_iff hus rfl hent (by decide) rfl rfl).2 (by decide)

def halfKeyed : Transaction := sharedBy [0, 1]

def halfKeyedNode : Node := sharedNode [0, 1]

/-- The owner of the second key signs, and the check of the signature ends the
process at the first key. -/
theorem second_key_aborts : AcceptedRun sampleEnv {sampleCoinbase, halfKeyed} 111 halfKeyedNode ∧
    (bucket halfKeyedNode.main.tables.multisignatureOutputs 5297658301515)[0]? =
      some ⟨⟨1, 0⟩, 0, false⟩ ∧ Assignable sampleEnv 0 [0, 1] [⟨0, 0⟩] ∧
    validateInput sampleEnv 222 halfKeyedNode.main.blocks halfKeyedNode.main.tables 0
      5297658301515 1 0 [⟨0, 0⟩] = .error .aborted := by
  have hc : addNewBlock sampleEnv 111 0 (mine 2 1 111 halfKeyed []) sampleNode =
      .ok (true, .added) halfKeyedNode := eq_ok_of_value (by decide)
  have hctd : Counted {sampleCoinbase, halfKeyed} (mine 2 1 111 halfKeyed []) :=
    ⟨.inr rfl,by decide⟩
  refine ⟨.block (sampleNode_run ⟨.inl rfl,by decide⟩) (by decide) UInt64.le_rfl hctd hc
    fun _ => rfl,by decide,⟨fun i => i + 1,fun i j hij => Nat.succ_lt_succ hij,?_⟩,
    by decide⟩
  intro i sig hsig
  cases i with
  | zero =>
    cases hsig
    exact ⟨1,rfl,by decide⟩
  | succ _ => cases hsig

end Multisignatures

def ring : TransactionInput → List (UInt64 × UInt32)
  | .key amount outputIndexes _ =>
    (relativeOutputOffsetsToAbsolute outputIndexes).map fun i => (amount, i)
  | _ => []

def blockOf (t : Tables) (member : UInt64 × UInt32) : Option ℕ :=
  (bucket t.outputs member.1)[member.2.toNat]?.map fun slot => slot.1.block

def lastBlock (t : Tables) (input : TransactionInput) : Option ℕ :=
  (ring input).getLast?.bind (blockOf t)

def Covered (t : Tables) (tx : Transaction) (height : ℕ) : Prop :=
  ∀ input ∈ tx.inputs, ∀ member ∈ ring input, ∀ block ∈ blockOf t member, block ≤ height

theorem scanOffsets_last {amountOuts : List (TransactionIndex × UInt16)} {offs : List UInt32}
    {keys : List PublicKey} {last : ℕ}
    (h : scanOffsets env now blocks amountOuts offs = .ok (some (keys, last))) {i : UInt32}
    (hi : offs.getLast? = some i) :
    amountOuts[i.toNat]?.map (fun slot => slot.1.block) = some last := by
  induction offs generalizing keys last with
  | nil => cases hi
  | cons first rest ih =>
    rw [scanOffsets] at h
    cases hs : amountOuts[first.toNat]? with
    | none => simp [hs] at h
    | some _ =>
      simp only [hs, except_bind_ok] at h
      obtain ⟨_,-,h⟩ := h
      split at h
      · cases h
      · split at h
        · cases h
        · simp only [except_bind_ok] at h
          obtain ⟨found,hfd,h⟩ := h
          cases found with
          | none => cases h
          | some _ =>
            cases h
            cases rest with
            | nil =>
              cases hi
              simp [hs]
            | cons _ _ =>
              rw [List.getLast?_cons_cons] at hi
              rw [if_neg (List.cons_ne_nil _ _)]
              exact ih hfd hi

variable {input : TransactionInput} {mu ht : ℕ}

theorem checkInput_height {ph : Hash} {sig : List Signature}
    (h : checkInput env now blocks t ph input sig mu = .ok (true, ht)) :
    (ring input = [] ∧ ht = mu) ∨ ∃ top, lastBlock t input = some top ∧ ht = max mu top := by
  cases input with
  | base _ => simp [checkInput] at h
  | multisignature _ _ _ =>
    simp only [checkInput, except_bind_ok] at h
    obtain ⟨valid,-,h⟩ := h
    cases h
    exact .inl ⟨rfl,rfl⟩
  | key amt idxs _ =>
    simp only [checkInput] at h
    split_ifs at h with hemp hsp
    · cases h
    · cases h
    simp only [checkTxInput, scanOutputKeysForIndexes, if_neg hemp, except_bind_ok] at h
    obtain ⟨found,hfd,h⟩ := h
    cases ho : t.outputs.lookup amt with
    | none =>
      rw [ho] at hfd
      cases hfd
      cases h
    | some amountOuts =>
      rw [ho] at hfd
      cases found with
      | none => cases h
      | some pair =>
        dsimp only at h
        split_ifs at h
        · cases h
        · cases h
        simp only [except_bind_ok] at h
        obtain ⟨valid,-,h⟩ := h
        cases h
        have hb : bucket t.outputs amt = amountOuts := by simp [bucket, ho]
        have hr : relativeOutputOffsetsToAbsolute idxs ≠ [] := by
          cases idxs with
          | nil => exact absurd rfl hemp
          | cons _ rest =>
            cases rest <;> simp [relativeOutputOffsetsToAbsolute, List.scanl_cons]
        have hl := List.getLast?_eq_some_getLast hr
        refine .inr ⟨pair.2,?_,rfl⟩
        simp only [lastBlock, ring, List.getLast?_map, hl, Option.map_some, Option.bind_some,
          blockOf, hb]
        exact scanOffsets_last hfd hl

theorem checkInputs_height {ph : Hash} {l : List (TransactionInput × List Signature)}
    (h : checkInputs env now blocks t ph l mu = .ok (true, ht)) :
    (∀ x ∈ l, ring x.1 ≠ [] → ∃ top, lastBlock t x.1 = some top) ∧ ∀ blk, blk ≤ ht ↔
      blk ≤ mu ∨ ∃ x ∈ l, ∃ top, lastBlock t x.1 = some top ∧ blk ≤ top := by
  induction l generalizing mu with
  | nil =>
    cases h
    simp
  | cons x _ ih =>
    simp only [checkInputs, except_bind_ok] at h
    obtain ⟨⟨valid,_⟩,hfst,h⟩ := h
    cases valid with
    | false => cases h
    | true =>
      obtain ⟨hs,hht⟩ := ih h
      rcases checkInput_height hfst with ⟨hr,rfl⟩ | ⟨top,htop,rfl⟩
      · have hn : lastBlock t x.1 = none := by rw [lastBlock, hr]; rfl
        simp [hht, hr, hn]
        exact fun a b => hs (a, b)
      · simp [hht, htop, or_assoc]
        exact fun a b => hs (a, b)

theorem mem_slots {wanted : TransactionOutputTarget → Bool} {idx : TransactionIndex} {k : ℕ}
    {outs : List TransactionOutput} {amt : UInt64} {slot : TransactionIndex × UInt16}
    (h : slot ∈ slots wanted idx k outs amt) : slot.1 = idx := by
  obtain ⟨_,-,hx⟩ := List.mem_filterMap.mp h
  split at hx
  · cases hx
    rfl
  · cases hx

theorem ledgerOf_ordered (bs : List BlockEntry) :
    (ledgerOf bs).Pairwise fun x y => x.1.block ≤ y.1.block := by
  have hblk : ∀ {ht k : ℕ} {txs : List Transaction}, ∀ x ∈ numbered ht k txs, x.1.block = ht := by
    intro ht k txs x hx
    obtain ⟨y,-,rfl⟩ := List.mem_map.mp hx
    rfl
  have hix : (bs.zipIdx.map Prod.snd).Pairwise (· < ·) := by
    rw [List.zipIdx_map_snd]
    exact List.pairwise_lt_range'
  refine List.pairwise_flatMap.mpr ⟨?_,?_⟩
  · intro e _
    refine List.pairwise_of_forall_mem_list fun x hx y hy => ?_
    rw [hblk x hx, hblk y hy]
  · refine (List.pairwise_map.mp hix).imp fun hlt x hx y hy => ?_
    rw [hblk x hx, hblk y hy]
    exact hlt.le

theorem outputs_ordered {m : MainChain} (h : Ledgered env m) (amt : UInt64) :
    (bucket m.tables.outputs amt).Pairwise fun a b => a.1.block ≤ b.1.block := by
  have hemp : bucket Tables.empty.outputs amt = [] := by simp [Tables.empty]
  rw [h.tables, applyLedger_outputs, hemp, List.nil_append]
  refine List.pairwise_flatMap.mpr ⟨?_,?_⟩
  · intro x _
    refine List.pairwise_of_forall_mem_list fun a ha b hb => ?_
    rw [mem_slots ha, mem_slots hb]
  · refine (ledgerOf_ordered m.blocks).imp fun hle a ha b hb => ?_
    rw [mem_slots ha, mem_slots hb]
    exact hle

def Unwrapped : TransactionInput → Prop
  | .key _ outputIndexes _ => (outputIndexes.map UInt32.toNat).sum < 2 ^ 32
  | _ => True

theorem scanl_ordered {offs : List UInt32} {start : UInt32}
    (h : start.toNat + (offs.map UInt32.toNat).sum < 2 ^ 32) :
    (∀ i ∈ offs.scanl (· + ·) start, start.toNat ≤ i.toNat) ∧
      (offs.scanl (· + ·) start).Pairwise fun i j => i.toNat ≤ j.toNat := by
  induction offs generalizing start with
  | nil => simp
  | cons off rest ih =>
    rw [List.map_cons, List.sum_cons] at h
    have hsum : (start + off).toNat = start.toNat + off.toNat := by
      rw [UInt32.toNat_add, Nat.mod_eq_of_lt (by omega)]
    obtain ⟨hlst,ho⟩ := @ih (start + off) (by omega)
    have hall : ∀ i ∈ rest.scanl (· + ·) (start + off), start.toNat ≤ i.toNat := fun i hi => by
        have := hlst i hi
        omega
    rw [List.scanl_cons]
    exact ⟨List.forall_mem_cons.mpr ⟨le_rfl,hall⟩,List.pairwise_cons.mpr ⟨hall,ho⟩⟩

theorem ring_le_last (h : Unwrapped input) {mem last : UInt64 × UInt32} (hmbr : mem ∈ ring input)
    (hl : (ring input).getLast? = some last) : mem.1 = last.1 ∧ mem.2.toNat ≤ last.2.toNat := by
  cases input with
  | base => cases hmbr
  | multisignature => cases hmbr
  | key amt idxs im =>
    have ho : (ring (.key amt idxs im)).Pairwise fun a b => a.2.toNat ≤ b.2.toNat :=
      List.pairwise_map.mpr (@scanl_ordered idxs 0 (by simpa [Unwrapped] using h)).2.tail
    obtain ⟨_,hfrt⟩ := List.getLast?_eq_some_iff.mp hl
    have ham : ∀ x ∈ ring (.key amt idxs im), x.1 = amt := by
      intro x hx
      obtain ⟨_,-,rfl⟩ := List.mem_map.mp hx
      rfl
    have hla : last ∈ ring (.key amt idxs im) := List.mem_of_getLast? hl
    refine ⟨(ham mem hmbr).trans (ham last hla).symm,?_⟩
    rw [hfrt] at ho hmbr
    rcases List.mem_append.mp hmbr with hin | hin
    · exact (List.pairwise_append.mp ho).2.2 mem hin last (by simp)
    · rw [List.mem_singleton.mp hin]

/-- The reported height covers the rings of an accepted transaction exactly if
every ring member lies at or below the last member of some ring. If the blocks
of the run are within the size limit, this holds whenever the offsets of each
ring add up without a carry out of 32 bits. -/
theorem reported_height_covers_iff {tx : Transaction} {height : ℕ}
    (h : checkTransactionInputs env now blocks t tx = .ok (true, height)) : (Covered t tx height ↔
      ∀ input ∈ tx.inputs, ∀ member ∈ ring input, ∀ block ∈ blockOf t member,
        ∃ other ∈ tx.inputs, ∃ top ∈ lastBlock t other, block ≤ top) ∧
    ∀ (U : Set Transaction) (clock : UInt64) (n : Node), Set.InjOn env.getObjectHash U →
      SizedRun env U clock n → n.main.tables = t → (∀ input ∈ tx.inputs, Unwrapped input) →
      Covered t tx height := by
  obtain ⟨hso,hht⟩ := checkInputs_height h
  have hl : ∀ input ∈ tx.inputs, ring input ≠ [] → ∃ top ∈ lastBlock t input, top ≤ height := by
    intro input hin hr
    obtain ⟨sig,hsig⟩ := mem_zip_signatures tx hin
    obtain ⟨top,htop⟩ := hso _ hsig hr
    exact ⟨top,htop,(hht top).mpr (.inr ⟨_,hsig,top,htop,le_rfl⟩)⟩
  have hc : Covered t tx height ↔ ∀ input ∈ tx.inputs, ∀ member ∈ ring input,
      ∀ block ∈ blockOf t member, ∃ other ∈ tx.inputs, ∃ top ∈ lastBlock t other, block ≤ top := by
    constructor
    · intro hcov input hin member hmbr block hblk
      rcases (hht block).mp (hcov input hin member hmbr block hblk) with
        hz | ⟨x,hx,top,htop,hle⟩
      · obtain ⟨top,htop,-⟩ := hl input hin (List.ne_nil_of_mem hmbr)
        exact ⟨input,hin,top,htop,hz.trans top.zero_le⟩
      · exact ⟨x.1,(List.of_mem_zip hx).1,top,htop,hle⟩
    · intro hall input hin member hmbr block hblk
      obtain ⟨other,hoth,top,htop,hle⟩ := hall input hin member hmbr block hblk
      obtain ⟨sig,hsig⟩ := mem_zip_signatures tx hoth
      exact (hht block).mpr (.inr ⟨_,hsig,top,htop,hle⟩)
  refine ⟨hc,?_⟩
  rintro U clock n hU hrun rfl hu
  refine hc.mpr fun input hin member hmbr block hblk => ?_
  obtain ⟨top,htop,-⟩ := hl input hin (List.ne_nil_of_mem hmbr)
  refine ⟨input,hin,top,htop,?_⟩
  obtain ⟨last,hla,htop⟩ := Option.bind_eq_some_iff.mp htop
  obtain ⟨ham,hle⟩ := ring_le_last (hu input hin) hmbr hla
  have ho := outputs_ordered (ledgered_of_built hU (good_of_sizedRun hU hrun).built) last.1
  obtain ⟨_,hs,rfl⟩ := Option.map_eq_some_iff.mp hblk
  obtain ⟨_,ht,rfl⟩ := Option.map_eq_some_iff.mp htop
  rw [ham] at hs
  rcases hle.eq_or_lt with heq | hlt
  · rw [heq, ht] at hs
    cases hs
    rfl
  · obtain ⟨hi,rfl⟩ := List.getElem?_eq_some_iff.mp hs
    obtain ⟨hj,rfl⟩ := List.getElem?_eq_some_iff.mp ht
    exact List.pairwise_iff_getElem.mp ho _ _ hi hj hlt

def coinbaseOf (label : UInt8) (height : ℕ) (rest : UInt64) : Transaction :=
  { mint label height 0 (.key 1) with outputs := [⟨1, .key 1⟩, ⟨rest, .key 1⟩] }

def coinBlock : Block := mine 2 1 1000 (coinbaseOf 2 1 5297658301514) []

def laterBlock : Block := mine 3 2 2000 (coinbaseOf 3 2 5297655775393) []

def coinNode : Node := left (addNewBlock sampleEnv 5000 1 coinBlock sampleNode)

def laterNode : Node := left (addNewBlock sampleEnv 5000 1 laterBlock coinNode)

theorem pair_signed (first second : UInt32) :
    ([[⟨0, 0⟩, ⟨0, 0⟩]] : List (List Signature)).map List.length =
      ([.key 1 [first, second] 7] : List TransactionInput).map getSignaturesCount := rfl

def pairSpend (first second : UInt32) : Transaction where
  version := 1
  unlockTime := 0
  inputs := [.key 1 [first, second] 7]
  outputs := []
  extra := [4]
  signatures := [[⟨0, 0⟩, ⟨0, 0⟩]]
  signed := pair_signed first second

theorem reported_height_sample : Covered laterNode.main.tables (pairSpend 0 1) 2 ↔
      ∀ input ∈ (pairSpend 0 1).inputs, ∀ member ∈ ring input,
        ∀ block ∈ blockOf laterNode.main.tables member, ∃ other ∈ (pairSpend 0 1).inputs,
          ∃ top ∈ lastBlock laterNode.main.tables other, block ≤ top := by
  have hchk : checkTransactionInputs sampleEnv 5000 laterNode.main.blocks laterNode.main.tables
      (pairSpend 0 1) = .ok (true, 2) := by decide
  exact (reported_height_covers_iff hchk).1

def coinTransactions : Set Transaction :=
  {sampleCoinbase, coinBlock.baseTransaction, laterBlock.baseTransaction}

/-- With the offsets one and `2 ^ 32 - 1` the ring goes back to the first coin,
whose block is reported although the other coin is from the block above. -/
theorem wrapped_ring_uncovered : AcceptedRun sampleEnv coinTransactions 5000 laterNode ∧
    checkTransactionInputs sampleEnv 5000 laterNode.main.blocks laterNode.main.tables
      (pairSpend 1 4294967295) = .ok (true, 1) ∧ (1, 1) ∈ ring (.key 1 [1, 4294967295] 7) ∧
    blockOf laterNode.main.tables (1, 1) = some 2 := by
  have hfst : addNewBlock sampleEnv 5000 1 coinBlock sampleNode = .ok (true, .added) coinNode :=
    eq_ok_of_value (by decide)
  have hsnd : addNewBlock sampleEnv 5000 1 laterBlock coinNode = .ok (true, .added) laterNode :=
    eq_ok_of_value (by decide)
  have hc : Counted coinTransactions coinBlock := ⟨.inr (.inl rfl),by decide⟩
  have hlat : Counted coinTransactions laterBlock := ⟨.inr (.inr rfl),by decide⟩
  have hco : AcceptedRun sampleEnv coinTransactions 5000 coinNode :=
    .block (sampleNode_run ⟨.inl rfl,by decide⟩) (by decide) UInt64.le_rfl hc hfst fun _ => rfl
  exact ⟨.block hco UInt64.le_rfl UInt64.le_rfl hlat hsnd fun _ => rfl,
    by decide,by decide,by decide⟩

end Orbis.ChainRing
