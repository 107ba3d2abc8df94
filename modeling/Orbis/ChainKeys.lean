import Orbis.ChainLedger
import Orbis.ChainUpheld

/-!
# The keys that reach the signature checks

Every key that the signature checks decode is read from an output of a
stored block. Ordinary transactions have their output keys checked before
they enter the pool, coinbases never. The keys of a ring are kept as pointers
into the cache of blocks, so that a ring over more blocks than the cache has
places is checked over freed keys. If the coinbases of all offered blocks pay
to keys that decode and rings are no longer than the cache, no call on the node
reaches `abort`, whatever state the tables are in and however the calls before
it ended.
-/

set_option autoImplicit false

namespace Orbis.ChainKeys

open FaultState VectorTable ChainTypes ChainSignature ChainSemantic ChainTables ChainInputs
open ChainBlock ChainNode ChainUpheld ChainRun ChainRestore ChainLedger

def targetKeys : TransactionOutputTarget → List PublicKey
  | .key key => [key]
  | .multisignature keys _ => keys

def TxKeyed (ops : CurveOps) (tx : Transaction) : Prop :=
  ∀ out ∈ tx.outputs, ∀ key ∈ targetKeys out.target, ops.checkKey key = true

/-- No ring has more members than `m_blocks` keeps blocks in its cache. -/
def ShortRings (tx : Transaction) : Prop :=
  ∀ amount indexes image, .key amount indexes image ∈ tx.inputs → indexes.length ≤ blockCacheSize

/-- The coinbase of the block pays to keys that decode. -/
def Keyed (env : Env) (b : Block) : Prop := TxKeyed env.ops b.baseTransaction

def EntryKeyed (env : Env) (e : BlockEntry) : Prop :=
  Keyed env e.bl ∧ ∀ entry ∈ e.transactions, TxKeyed env.ops entry.tx

def BlocksKeyed (env : Env) (blocks : List BlockEntry) : Prop := ∀ e ∈ blocks, EntryKeyed env e

variable {env : Env} {now : UInt64} {bs : List BlockEntry} {block blk : BlockEntry}
  {tx : Transaction} (inputs : List TransactionInput) (hash : Hash)

theorem txKeyed_of_semantic {ops : CurveOps}
    (h : checkTxSemantic ops tx.toTransactionPrefix = true) : TxKeyed ops tx := by
  intro out hout key hkey
  have hvd := ((checkTxSemantic_iff ops _).mp h).targets out hout
  unfold checkTargetValid at hvd
  cases htgt : out.target with
  | key only =>
    rw [htgt] at hkey hvd
    simp only [Bool.and_eq_true] at hvd
    rw [List.mem_singleton.mp hkey]
    exact hvd.2
  | multisignature _ _ =>
    rw [htgt] at hkey hvd
    simp only [Bool.and_eq_true, List.all_eq_true] at hvd
    exact hvd.2 key hkey

theorem transactionByIndex_keyed (hk : BlocksKeyed env bs) (idx : TransactionIndex) :
    Yields Survivable (fun e => TxKeyed env.ops e.tx) (transactionByIndex bs idx) := by
  unfold transactionByIndex
  cases hblk : bs[idx.block]? with
  | none => exact yields_error (by decide)
  | some blk =>
    dsimp only
    cases hent : blk.transactions[idx.transaction.toNat]? with
    | none => exact yields_error (by decide)
    | some e =>
      exact yields_ok ((hk blk (List.mem_of_getElem? hblk)).2 e (List.mem_of_getElem? hent))

def RingKeyed (env : Env) (ring : Option (List PublicKey × ℕ)) : Prop :=
  ∀ keys last, ring = some (keys, last) → ∀ key ∈ keys, env.ops.checkKey key = true

theorem ringKeyed_none : RingKeyed env none := by
  intro keys last h
  cases h

/-! A fault of the input check is one of the lookup of an output, or `abort`
for a key that does not decode. -/

variable {im : KeyImage} {keys : List PublicKey} {α : Type} {l : List (Transaction × Hash)}
  {b : Block}

section Faults

variable {E : Fault → Prop} {t : Tables} {ph : Hash} {amt : UInt64}
  {sigs : List Signature}

theorem scanOffsets_yields {amountOuts : List (TransactionIndex × UInt16)} {offs : List UInt32}
    (h : ∀ i ∈ offs, ∀ slot, amountOuts[i.toNat]? = some slot →
      Yields E (fun e => E .aborted ∨ TxKeyed env.ops e.tx)
        (transactionByIndex bs slot.1)) : Yields E (fun ring => E .aborted ∨ RingKeyed env ring)
      (scanOffsets env now bs amountOuts offs) := by
  induction offs with
  | nil =>
    refine yields_ok (.inr ?_)
    intro keys last h
    cases h
    simp
  | cons i _ ih =>
    obtain ⟨hfst,hlat⟩ := List.forall_mem_cons.mp h
    unfold scanOffsets
    cases hs : amountOuts[i.toNat]? with
    | none => exact yields_ok (.inr ringKeyed_none)
    | some slot =>
      refine yields_bind (hfst slot hs) fun e hent => ?_
      cases hout : e.tx.outputs[slot.2.toNat]? with
      | none => exact yields_ok (.inr ringKeyed_none)
      | some out =>
        dsimp only
        cases hkey : handleOutput env now bs e.tx out with
        | none => exact yields_ok (.inr ringKeyed_none)
        | some key =>
          refine yields_bind (ih hlat) fun ring hr => ?_
          cases ring with
          | none => exact yields_ok (.inr ringKeyed_none)
          | some found =>
            refine yields_ok (hr.elim Or.inl fun hr => hent.imp_right fun hent => ?_)
            intro keys last h
            cases h
            have hmem : key ∈ targetKeys out.target := by
              rw [handleOutput_key hkey]
              exact List.mem_singleton_self key
            intro o hoth
            rcases List.mem_cons.mp hoth with rfl | hre
            · exact hent out (List.mem_of_getElem? hout) o hmem
            · exact hr found.1 found.2 rfl o hre

theorem checkRingSignature_yields (hk : E .aborted ∨ ∀ key ∈ keys, env.ops.checkKey key = true) :
    Yields E (fun _ => True) (env.ops.checkRingSignature ph im keys sigs) := by
  refine ⟨fun _ _ => trivial,?_⟩
  intro fault h
  obtain ⟨rfl,key,hkey,hbad⟩ := env.ops.checkRingSignature_error h
  refine hk.resolve_right fun hall => ?_
  rw [hall key hkey] at hbad
  cases hbad

theorem checkTxInput_yields {idxs : List UInt32} {sig : List Signature} {mu : ℕ}
    (h : ∀ i ∈ relativeOutputOffsetsToAbsolute idxs, ∀ slot,
      (bucket t.outputs amt)[i.toNat]? = some slot →
        Yields E (fun e => E .aborted ∨ TxKeyed env.ops e.tx)
          (transactionByIndex bs slot.1)) (hd : E .dangling ∨ idxs.length ≤ blockCacheSize) :
    Yields E (fun _ => True) (checkTxInput env now bs t ph amt idxs im sig mu) := by
  have hs : Yields E (fun ring => E .aborted ∨ RingKeyed env ring)
      (scanOutputKeysForIndexes env now bs t amt idxs) := by
    unfold scanOutputKeysForIndexes
    split
    · exact yields_ok (.inr ringKeyed_none)
    · rename_i amountOuts ho
      have hb : bucket t.outputs amt = amountOuts := by simp [bucket, ho]
      split
      · exact yields_ok (.inr ringKeyed_none)
      · exact scanOffsets_yields (hb ▸ h)
  refine yields_bind hs fun ring hr => ?_
  split
  · exact yields_ok trivial
  · rename_i keys last
    split
    · exact yields_ok trivial
    · split
      · exact yields_ok trivial
      · split
        · rename_i hnot
          refine yields_error (hd.resolve_right fun hlen => ?_)
          simp [ringCached_of_length hlen] at hnot
        · exact yields_bind (checkRingSignature_yields (hr.imp_right fun h => h keys last rfl))
            fun _ _ => yields_ok trivial

theorem checkMultisignatures_yields (hk : E .aborted ∨ ∀ key ∈ keys, env.ops.checkKey key = true) :
    Yields E (fun _ => True) (checkMultisignatures env ph keys sigs) := by
  induction keys generalizing sigs with
  | nil => cases sigs <;> exact yields_ok trivial
  | cons key _ ih =>
    cases sigs with
    | nil => exact yields_ok trivial
    | cons sig _ =>
      have hkey : Yields E (fun _ => True) (env.ops.checkSignature ph key sig) := by
        refine ⟨fun _ _ => trivial,?_⟩
        intro fault h
        obtain ⟨rfl,hbad⟩ := env.ops.checkSignature_error h
        refine hk.resolve_right fun hall => ?_
        rw [hall key List.mem_cons_self] at hbad
        cases hbad
      have hlat := hk.imp_right fun hall => (List.forall_mem_cons.mp hall).2
      refine yields_bind hkey fun valid _ => ?_
      cases valid with
      | true => exact ih hlat
      | false => exact ih hlat

theorem validateInput_yields {cnt : UInt8} {i : UInt32}
    (h : ∀ usage, (bucket t.multisignatureOutputs amt)[i.toNat]? = some usage →
      Yields E (fun e => (E .aborted ∨ TxKeyed env.ops e.tx) ∧ (E .undefined ∧ E .badGet ∨
          ∃ out keys required, e.tx.outputs[usage.outputIndex.toNat]? = some out ∧
            out.target = .multisignature keys required))
        (transactionByIndex bs usage.transactionIndex)) : Yields E (fun _ => True)
      (validateInput env now bs t ph amt cnt i sigs) := by
  unfold validateInput
  split
  · exact yields_ok trivial
  · rename_i usage hus
    split
    · exact yields_ok trivial
    · refine yields_bind (h usage hus) fun e hent => ?_
      obtain ⟨hkeyed,hk⟩ := hent
      split
      · exact yields_ok trivial
      · cases hout : e.tx.outputs[usage.outputIndex.toNat]? with
        | none =>
          rw [hout] at hk
          exact yields_error (by simpa using hk.imp_left And.left)
        | some out =>
          rw [hout] at hk
          have hke := hkeyed.imp_right fun hall => hall out (List.mem_of_getElem? hout)
          dsimp only
          cases htgt : out.target with
          | key _ => exact yields_error (by simpa [htgt] using hk.imp_left And.right)
          | multisignature _ _ =>
            rw [htgt] at hke
            dsimp only
            split
            · exact yields_ok trivial
            · exact checkMultisignatures_yields hke

theorem checkTransactionInputs_yields (hk : ∀ amt idxs im, .key amt idxs im ∈ tx.inputs →
      ∀ i ∈ relativeOutputOffsetsToAbsolute idxs, ∀ slot,
        (bucket t.outputs amt)[i.toNat]? = some slot →
        Yields E (fun e => E .aborted ∨ TxKeyed env.ops e.tx) (transactionByIndex bs slot.1))
    (hmul : ∀ amt cnt i, .multisignature amt cnt i ∈ tx.inputs →
      ∀ usage, (bucket t.multisignatureOutputs amt)[i.toNat]? = some usage →
        Yields E (fun e => (E .aborted ∨ TxKeyed env.ops e.tx) ∧ (E .undefined ∧ E .badGet ∨
            ∃ out keys required, e.tx.outputs[usage.outputIndex.toNat]? = some out ∧
              out.target = .multisignature keys required))
          (transactionByIndex bs usage.transactionIndex)) (hrings : E .dangling ∨ ShortRings tx) :
    Yields E (fun _ => True) (checkTransactionInputs env now bs t tx) := by
  have hin : ∀ {ph} {inp}, inp ∈ tx.inputs → ∀ sig mu, Yields E (fun _ => True)
        (checkInput env now bs t ph inp sig mu) := by
    intro ph inp hmem sig mu
    cases inp with
    | base _ => exact yields_ok trivial
    | key amt idxs im =>
      simp only [checkInput]
      split
      · exact yields_ok trivial
      · split
        · exact yields_ok trivial
        · exact checkTxInput_yields (hk amt idxs im hmem)
            (hrings.imp_right fun h => h amt idxs im hmem)
    | multisignature amt cnt i =>
      exact yields_bind (validateInput_yields (hmul amt cnt i hmem)) fun _ _ => yields_ok trivial
  have hins : ∀ l : List (TransactionInput × List Signature), (∀ x ∈ l, x.1 ∈ tx.inputs) →
      ∀ ph mu, Yields E (fun _ => True) (checkInputs env now bs t ph l mu) := by
    intro l hl ph
    induction l with
    | nil => exact fun mu => yields_ok trivial
    | cons _ _ ih =>
      intro mu
      obtain ⟨hfst,hlat⟩ := List.forall_mem_cons.mp hl
      refine yields_bind (hin hfst _ _) fun res _ => ?_
      obtain ⟨valid,used⟩ := res
      cases valid with
      | true => exact ih hlat used
      | false => exact yields_ok trivial
  exact hins _ (fun x hx => (List.of_mem_zip hx).1) _ 0

end Faults

theorem checkTransactionInputs_survives (hk : BlocksKeyed env bs) (t : Tables)
    (hrings : ShortRings tx) :
    Yields Survivable (fun _ => True) (checkTransactionInputs env now bs t tx) := by
  have hr := fun idx => transactionByIndex_keyed hk idx
  apply checkTransactionInputs_yields
  · exact fun _ _ _ _ _ _ slot _ => ⟨fun e h => .inr ((hr slot.1).1 e h),(hr _).2⟩
  · intro _ _ _ _ usage _
    refine ⟨fun e h => ⟨.inr ((hr _).1 e h),.inl ?_⟩,(hr _).2⟩
    exact ⟨by decide,by decide⟩
  · exact .inr hrings

def Tame {α : Type} (x : EStateM Fault Tables α) : Prop :=
  Keeps (fun _ => True) Survivable (fun _ => True) x

theorem tame_bind {β : Type} {x : EStateM Fault Tables α} {f : α → EStateM Fault Tables β}
    (hx : Tame x) (hf : ∀ a, Tame (f a)) : Tame (x >>= f) :=
  keeps_bind hx fun a _ => hf a

theorem tame_pure (a : α) : Tame (pure a : EStateM Fault Tables α) :=
  keeps_pure trivial

theorem tame_modify {f : Tables → Tables} : Tame (modify f) := keeps_modify fun _ _ => trivial

theorem tame_set (t : Tables) : Tame (set t) := keeps_set trivial

theorem tame_get : Tame (get : EStateM Fault Tables Tables) := keeps_get

theorem unspendKeyImages_tame : Tame (unspendKeyImages inputs) := by
  induction inputs with
  | nil => exact tame_pure _
  | cons inp _ ih =>
    cases inp with
    | base _ => exact keeps_throw (by decide)
    | key _ _ _ => exact tame_bind tame_modify fun _ => ih
    | multisignature _ _ _ => exact keeps_throw (by decide)

theorem spendKeyImages_tame (done ins : List TransactionInput) :
    Tame (spendKeyImages done ins) := by
  induction ins generalizing done with
  | nil => exact tame_pure _
  | cons inp _ ih =>
    cases inp with
    | base _ => exact ih _
    | key _ _ _ =>
      simp only [spendKeyImages]
      refine tame_bind tame_get fun t => ?_
      split
      · exact tame_bind (unspendKeyImages_tame done) fun _ => tame_pure _
      · exact tame_bind tame_modify fun _ => ih _
    | multisignature _ _ _ => exact ih _

theorem markUsed_tame (used : Bool) (amt : UInt64) (oi : UInt32) : Tame (markUsed used amt oi) := by
  unfold markUsed
  refine tame_bind tame_get fun t => ?_
  split
  · exact tame_set _
  · exact keeps_throw (by decide)

theorem markInputs_tame : Tame (markInputs inputs) := by
  induction inputs with
  | nil => exact tame_pure _
  | cons inp _ ih =>
    cases inp with
    | base _ => exact ih
    | key _ _ _ => exact ih
    | multisignature amt _ oi =>
      exact tame_bind (markUsed_tame true amt oi) fun _ => ih

def SameTransactions (block block' : BlockEntry) : Prop :=
  block'.bl = block.bl ∧
    block'.transactions.map TransactionEntry.tx = block.transactions.map TransactionEntry.tx

theorem setGlobalOutputIndexes_same {i : ℕ} {e : TransactionEntry}
    (h : blk.transactions[i]? = some e) (idxs : List UInt32) :
    SameTransactions blk (setGlobalOutputIndexes blk i e idxs) := by
  obtain ⟨hi,rfl⟩ := List.getElem?_eq_some_iff.mp h
  refine ⟨rfl,?_⟩
  rw [setGlobalOutputIndexes, List.map_set]
  refine List.ext_getElem? fun j => ?_
  by_cases hj : i = j
  · subst hj
    simp [hi]
  · rw [List.getElem?_set_ne hj]

theorem pushTransaction_tame (blk : BlockEntry) (hash : Hash) (idx : TransactionIndex) :
    Keeps (fun _ => True) Survivable (fun res => SameTransactions blk res.2)
      (pushTransaction env blk hash idx) := by
  unfold pushTransaction
  refine keeps_bind tame_get fun t _ => ?_
  split
  · exact keeps_pure ⟨rfl,rfl⟩
  · refine keeps_bind (tame_set _) fun _ _ => ?_
    split
    · exact keeps_throw (by decide)
    · rename_i e hent
      split
      · exact keeps_bind tame_modify fun _ _ => keeps_pure ⟨rfl,rfl⟩
      · refine keeps_bind (spendKeyImages_tame [] _) fun fresh _ => ?_
        split
        · exact keeps_bind tame_modify fun _ _ => keeps_pure ⟨rfl,rfl⟩
        · refine keeps_bind (markInputs_tame _) fun _ _ => ?_
          split
          · exact keeps_throw (by decide)
          · refine keeps_bind tame_get fun u _ => ?_
            exact keeps_bind (tame_set _) fun _ _ => keeps_pure (setGlobalOutputIndexes_same hent _)

def EntryCheckable (env : Env) (e : BlockEntry) : Prop :=
  EntryKeyed env e ∧ ∀ entry ∈ e.transactions.drop 1, ShortRings entry.tx

def ChainKeyed (env : Env) (m : MainChain) : Prop := ∀ e ∈ m.blocks, EntryCheckable env e

theorem ChainKeyed.blocks {m : MainChain} (h : ChainKeyed env m) : BlocksKeyed env m.blocks :=
  fun e he => (h e he).1

theorem shortRings_of_inputs {tx : Transaction}
    (h : ∀ input ∈ tx.inputs, (match input with
      | .key _ indexes _ => indexes
      | _ => []).length ≤ blockCacheSize) : ShortRings tx :=
  fun _ _ _ hin => h _ hin

theorem sampleRing_signed : ([[⟨0, 0⟩]] : List (List Signature)).map List.length =
    ([.key 5297658301515 [0] 7] : List TransactionInput).map getSignaturesCount := rfl

def sampleRing : Transaction where
  version := 1
  unlockTime := 0
  inputs := [.key 5297658301515 [0] 7]
  outputs := []
  extra := [3]
  signatures := [[⟨0, 0⟩]]
  signed := sampleRing_signed

end Orbis.ChainKeys
