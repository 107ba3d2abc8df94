import Orbis.ChainBinary

/-!
# The extra field of a transaction

The extra bytes of a transaction hold public keys of 32 bytes, nonces behind
their length and a run of zeros as padding, each behind a tag. A tag that is
not known is passed over alone. Padding has no length and reaches to the end,
so it can only be the last field. The fields that were read before an error
stay with the caller, and a field that is too long ends the writing.
-/

set_option autoImplicit false

namespace Orbis.TransactionExtra

open ByteCodec ChainTypes ChainBinary

def txExtraPaddingMaxCount : ℕ := 255

def txExtraNonceMaxCount : ℕ := 255

inductive TransactionExtraField where
  | padding (size : ℕ)
  | publicKey (key : PublicKey)
  | nonce (nonce : Bytes)
  deriving DecidableEq

def readPadding : ℕ → Reader ℕ
  | size, [] => some (size, [])
  | size, byte :: rest =>
    if size ≤ txExtraPaddingMaxCount then
      if byte ≠ 0 then none else readPadding (size + 1) rest
    else some (size, byte :: rest)

def readTagged (c : UInt8) : Reader (List TransactionExtraField) :=
  if c = 0 then do
    let size ← readPadding 1
    if txExtraPaddingMaxCount < size then failure else pure [.padding size]
  else if c = 1 then do
    let key ← readPod
    pure [.publicKey key]
  else if c = 2 then do
    let size ← readByte
    let nonce ← readMany readByte size.toNat
    pure [.nonce nonce]
  else pure []

def parseRounds : ℕ → Bytes → Bool × List TransactionExtraField
  | _, [] => (true, [])
  | 0, _ :: _ => (false, [])
  | rounds + 1, c :: bytes =>
    match (readTagged c).run bytes with
    | none => (false, [])
    | some (found, rest) => ((parseRounds rounds rest).1, found ++ (parseRounds rounds rest).2)

def parseTransactionExtra (transactionExtra : Bytes) : Bool × List TransactionExtraField :=
  parseRounds transactionExtra.length transactionExtra

def addExtraNonceToTransactionExtra (extra nonce : Bytes) : Bool × Bytes :=
  if txExtraNonceMaxCount < nonce.length then (false, extra)
  else (true, extra ++ 2 :: UInt8.ofNat nonce.length :: nonce)

def addTransactionPublicKeyToExtra (extra : Bytes) (key : PublicKey) : Bool × Bytes :=
  (true, extra ++ 1 :: writeWord 32 key)

def addField (extra : Bytes) : TransactionExtraField → Bool × Bytes
  | .padding size =>
    if txExtraPaddingMaxCount < size then (false, extra) else (true, extra ++ List.replicate size 0)
  | .publicKey key => addTransactionPublicKeyToExtra extra key
  | .nonce nonce => addExtraNonceToTransactionExtra extra nonce

def writeTransactionExtra (extra : Bytes) : List TransactionExtraField → Bool × Bytes
  | [] => (true, extra)
  | field :: fields =>
    if (addField extra field).1 then writeTransactionExtra (addField extra field).2 fields
    else (false, (addField extra field).2)

def Proper : List TransactionExtraField → Prop
  | [] => True
  | .padding size :: fields => 1 ≤ size ∧ size ≤ txExtraPaddingMaxCount ∧ fields = []
  | .publicKey key :: fields => PodFits key ∧ Proper fields
  | .nonce nonce :: fields => nonce.length ≤ txExtraNonceMaxCount ∧ Proper fields

def fieldBytes : TransactionExtraField → Bytes
  | .padding size => List.replicate size 0
  | .publicKey key => 1 :: writeWord 32 key
  | .nonce nonce => 2 :: UInt8.ofNat nonce.length :: nonce

variable {fields : List TransactionExtraField}

theorem writeTransactionExtra_proper (h : Proper fields) (extra : Bytes) :
    writeTransactionExtra extra fields = (true, extra ++ fields.flatMap fieldBytes) := by
  induction fields generalizing extra with
  | nil => simp [writeTransactionExtra]
  | cons field fields ih =>
    have hadd : addField extra field = (true, extra ++ fieldBytes field) ∧ Proper fields := by
      cases field with
      | padding _ =>
        obtain ⟨-,hs,rfl⟩ := h
        exact ⟨if_neg (not_lt.mpr hs),trivial⟩
      | publicKey _ => exact ⟨rfl,h.2⟩
      | nonce _ => exact ⟨if_neg (not_lt.mpr h.1),h.2⟩
    rw [writeTransactionExtra, hadd.1, if_pos rfl, ih hadd.2, List.flatMap_cons, List.append_assoc]

theorem readPadding_zeros (size cnt : ℕ) (h : size + cnt ≤ txExtraPaddingMaxCount + 1) :
    (readPadding size).run (List.replicate cnt 0) = some (size + cnt, []) := by
  induction cnt generalizing size with
  | zero => rfl
  | succ _ ih =>
    rw [List.replicate_succ]
    refine (if_pos (by omega)).trans ((if_neg (not_not.mpr rfl)).trans ?_)
    exact (ih (size + 1) (by omega)).trans (by rw [Nat.add_right_comm, Nat.add_assoc])

theorem readTagged_written {field : TransactionExtraField} (h : Proper (field :: fields)) :
    ∃ c bs, fieldBytes field = c :: bs ∧ (readTagged c).run (bs ++ fields.flatMap fieldBytes) =
        some ([field], fields.flatMap fieldBytes) := by
  cases field with
  | padding _ =>
    obtain ⟨hpos,hs,rfl⟩ := h
    obtain ⟨cnt,rfl⟩ := Nat.exists_eq_add_of_le' hpos
    refine ⟨0,List.replicate cnt 0,List.replicate_succ,?_⟩
    rw [List.flatMap_nil, List.append_nil, readTagged, if_pos rfl, StateT.run_bind,
      readPadding_zeros 1 cnt (by omega), Nat.add_comm 1 cnt]
    show StateT.run (if _ then _ else _) _ = _
    rw [if_neg (by omega)]
    rfl
  | publicKey key =>
    refine ⟨1,writeWord 32 key,rfl,?_⟩
    rw [readTagged, if_neg (by decide), if_pos rfl, StateT.run_bind,
      (readPod_exact _ key _).mpr ⟨h.1,rfl⟩]
    rfl
  | nonce nonce =>
    have hs : (UInt8.ofNat nonce.length).toNat = nonce.length := by
      rw [UInt8.toNat_ofNat',
        Nat.mod_eq_of_lt (show nonce.length < 2 ^ 8 from Nat.lt_succ_of_le h.1)]
    have hn := readByte_exact.reads.many nonce (fields.flatMap fieldBytes)
    rw [List.flatMap_singleton' nonce] at hn
    refine ⟨2,UInt8.ofNat nonce.length :: nonce,rfl,?_⟩
    rw [readTagged, if_neg (by decide), if_neg (by decide), if_pos rfl]
    show (readByte >>= _).run ([UInt8.ofNat nonce.length] ++ (nonce ++ _)) = _
    rw [readByte_exact.reads.bind, StateT.run_bind, hs, hn]
    rfl

theorem parseRounds_written (h : Proper fields) {rs : ℕ}
    (hrds : (fields.flatMap fieldBytes).length ≤ rs) :
    parseRounds rs (fields.flatMap fieldBytes) = (true, fields) := by
  induction fields generalizing rs with
  | nil => cases rs <;> rfl
  | cons field fields ih =>
    obtain ⟨_,_,hbys,hr⟩ := readTagged_written h
    have hprp : Proper fields := by
      cases field with
      | padding _ => exact h.2.2 ▸ trivial
      | publicKey _ => exact h.2
      | nonce _ => exact h.2
    rw [List.flatMap_cons, hbys, List.cons_append, List.length_cons] at hrds
    cases rs with
    | zero => omega
    | succ rs =>
      have hre := @ih hprp rs (by rw [List.length_append] at hrds; omega)
      rw [List.flatMap_cons, hbys, List.cons_append, parseRounds, hr]
      simp only [hre, List.singleton_append]

/-- What is written for proper fields is parsed into the same fields. -/
theorem extra_written_parsed {fields : List TransactionExtraField} (h : Proper fields) :
    (writeTransactionExtra [] fields).1 = true ∧
    parseTransactionExtra (writeTransactionExtra [] fields).2 = (true, fields) := by
  rw [writeTransactionExtra_proper h]
  exact ⟨rfl,parseRounds_written h le_rfl⟩

theorem extra_written_parsed_sample : Proper [.publicKey 5, .nonce [7, 0], .padding 3] ∧
    parseTransactionExtra (writeTransactionExtra [] [.publicKey 5, .nonce [7, 0], .padding 3]).2 =
        (true, [.publicKey 5, .nonce [7, 0], .padding 3]) := by
  have hprp : Proper [.publicKey 5, .nonce [7, 0], .padding 3] :=
    ⟨by norm_num [PodFits],by decide,by decide,by decide,rfl⟩
  exact ⟨hprp,(extra_written_parsed hprp).2⟩

end Orbis.TransactionExtra
