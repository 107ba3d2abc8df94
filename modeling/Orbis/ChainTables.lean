import Orbis.FaultState
import Orbis.VectorTable
import Orbis.ChainSemantic

/-!
# The tables derived from the main chain

`pushTransaction` enters a transaction into the transaction map, the set of
spent key images, the two output tables and the payment-id index;
`popTransaction` takes it out again. Both follow the source step by step:
the undo walks the outputs backwards, skips with a log message whatever does
not look like the transaction's own entry, and only then frees the inputs.
The 16-bit output counter of `pushTransaction` never reaches a bound of
`2 ^ 16` or more.
-/

set_option autoImplicit false

namespace Orbis.ChainTables

open VectorTable ChainTypes ChainSemantic

structure Tables where
  transactionMap : Finmap (fun _ : Hash => TransactionIndex)
  spentKeys : Finset KeyImage
  outputs : Table UInt64 (TransactionIndex × UInt16)
  multisignatureOutputs : Table UInt64 MultisignatureOutputUsage
  paymentIdIndex : Multiset (Hash × Hash)

namespace Tables

def empty : Tables where
  transactionMap := ∅
  spentKeys := ∅
  outputs := ∅
  multisignatureOutputs := ∅
  paymentIdIndex := 0

end Tables

variable (env : Env)

def paymentIds (tx : Transaction) : Multiset (Hash × Hash) :=
  match env.getPaymentId tx.extra with
  | none => 0
  | some paymentId => {(paymentId, env.getObjectHash tx)}

def insertTransaction (hash : Hash) (index : TransactionIndex) (t : Tables) : Tables :=
  { t with transactionMap := t.transactionMap.insert hash index }

def eraseTransaction (hash : Hash) (t : Tables) : Tables :=
  { t with transactionMap := t.transactionMap.erase hash }

def spendKeyImage (image : KeyImage) (t : Tables) : Tables :=
  { t with spentKeys := insert image t.spentKeys }

def unspendKeyImage (image : KeyImage) (t : Tables) : Tables :=
  { t with spentKeys := t.spentKeys.erase image }

def setUsed (used : Bool) (usage : MultisignatureOutputUsage) : MultisignatureOutputUsage :=
  { usage with isUsed := used }

def setUsedAt (used : Bool) (amount : UInt64) (outputIndex : UInt32) (t : Tables) : Tables :=
  { t with multisignatureOutputs :=
      modifyAt t.multisignatureOutputs amount outputIndex.toNat (setUsed used) }

def addPaymentId (tx : Transaction) (t : Tables) : Tables :=
  { t with paymentIdIndex := t.paymentIdIndex + paymentIds env tx }

def removePaymentId (tx : Transaction) (t : Tables) : Tables :=
  { t with paymentIdIndex := t.paymentIdIndex - paymentIds env tx }

def setGlobalOutputIndexes (block : BlockEntry) (i : ℕ) (entry : TransactionEntry)
    (indexes : List UInt32) : BlockEntry :=
  { block with transactions :=
      block.transactions.set i { entry with globalOutputIndexes := indexes } }

def unspendKeyImages : List TransactionInput → EStateM Fault Tables Unit
  | [] => pure ()
  | .key _ _ image :: rest => do
    modify (unspendKeyImage image)
    unspendKeyImages rest
  | _ :: _ => throw .badGet

def spendKeyImages : List TransactionInput → List TransactionInput → EStateM Fault Tables Bool
  | _, [] => pure true
  | done, .key amount outputIndexes image :: rest => do
    let t ← get
    if image ∈ t.spentKeys then
      unspendKeyImages done
      pure false
    else
      modify (spendKeyImage image)
      spendKeyImages (.key amount outputIndexes image :: done) rest
  | done, input :: rest => spendKeyImages (input :: done) rest

def markUsed (used : Bool) (amount : UInt64) (outputIndex : UInt32) :
    EStateM Fault Tables Unit := do
  let t ← get
  if outputIndex.toNat < (bucket t.multisignatureOutputs amount).length then
    set (setUsedAt used amount outputIndex t)
  else throw .undefined

def markInputs : List TransactionInput → EStateM Fault Tables Unit
  | [] => pure ()
  | .multisignature amount _ outputIndex :: rest => do
    markUsed true amount outputIndex
    markInputs rest
  | _ :: rest => markInputs rest

def pushOutput (index : TransactionIndex) (output : UInt16) (out : TransactionOutput)
    (t : Tables) : Tables :=
  match out.target with
  | .key _ => { t with outputs := pushBack t.outputs out.amount (index, output) }
  | .multisignature _ _ =>
    { t with multisignatureOutputs :=
        pushBack t.multisignatureOutputs out.amount ⟨index, output, false⟩ }

def globalOutputIndex (out : TransactionOutput) (t : Tables) : UInt32 :=
  match out.target with
  | .key _ => UInt32.ofNat (bucket t.outputs out.amount).length
  | .multisignature _ _ => UInt32.ofNat (bucket t.multisignatureOutputs out.amount).length

def pushOutputs (index : TransactionIndex) :
    UInt16 → List TransactionOutput → Tables → Tables × List UInt32
  | _, [], t => (t, [])
  | output, out :: rest, t =>
    let pushed := pushOutputs index (output + 1) rest (pushOutput index output out t)
    (pushed.1, globalOutputIndex out t :: pushed.2)

def pushTransaction (block : BlockEntry) (transactionHash : Hash) (index : TransactionIndex) :
    EStateM Fault Tables (Bool × BlockEntry) := do
  let t ← get
  if transactionHash ∈ t.transactionMap then pure (false, block)
  else
    set (insertTransaction transactionHash index t)
    match block.transactions[index.transaction.toNat]? with
    | none => throw .undefined
    | some entry =>
      if !checkMultisignatureInputsDiff entry.tx.toTransactionPrefix then
        modify (eraseTransaction transactionHash)
        pure (false, block)
      else
        let fresh ← spendKeyImages [] entry.tx.inputs
        if !fresh then
          modify (eraseTransaction transactionHash)
          pure (false, block)
        else
          markInputs entry.tx.inputs
          if 2 ^ 16 ≤ entry.tx.outputs.length then throw .endless
          else
            let t ← get
            let pushed := pushOutputs index 0 entry.tx.outputs t
            set (addPaymentId env entry.tx pushed.1)
            pure (true, setGlobalOutputIndexes block index.transaction.toNat entry pushed.2)

def popOutput (index : TransactionIndex) (output : ℕ) (out : TransactionOutput)
    (t : Tables) : Tables :=
  match out.target with
  | .key _ =>
    match (bucket t.outputs out.amount).getLast? with
    | none => t
    | some (transactionIndex, outputIndex) =>
      if transactionIndex = index ∧ outputIndex.toNat = output then
        { t with outputs := dropBack t.outputs out.amount }
      else t
  | .multisignature _ _ =>
    match (bucket t.multisignatureOutputs out.amount).getLast? with
    | none => t
    | some usage =>
      if usage.isUsed = false ∧ usage.transactionIndex = index ∧
          usage.outputIndex.toNat = output then
        { t with multisignatureOutputs := dropBack t.multisignatureOutputs out.amount }
      else t

def popOutputs (index : TransactionIndex) (outputs : List TransactionOutput) (t : Tables) :
    Tables :=
  outputs.zipIdx.foldr (fun out t => popOutput index out.2 out.1 t) t

def popInputs : List TransactionInput → EStateM Fault Tables Unit
  | [] => pure ()
  | .base _ :: rest => popInputs rest
  | .key _ _ image :: rest => do
    modify (unspendKeyImage image)
    popInputs rest
  | .multisignature amount _ outputIndex :: rest => do
    markUsed false amount outputIndex
    popInputs rest

def erasesAmount (outputs : List TransactionOutput) (before after : Tables) : Bool :=
  outputs.any fun out => !isKey out.target &&
    !(bucket before.multisignatureOutputs out.amount).isEmpty &&
    (bucket after.multisignatureOutputs out.amount).isEmpty

def popTransaction (tx : Transaction) (transactionHash : Hash) :
    EStateM Fault Tables Unit := do
  let t ← get
  match t.transactionMap.lookup transactionHash with
  | none => throw .outOfRange
  | some index =>
    let popped := popOutputs index tx.outputs t
    -- `m_outputs` has a deleted key, `m_multisignatureOutputs` has none: its `erase` breaks
    -- the contract of `sparse_hash_map`, an assertion or an entry under an unset key
    if erasesAmount tx.outputs t popped then throw .erased
    set popped
    popInputs tx.inputs
    modify (removePaymentId env tx)
    modify (eraseTransaction transactionHash)

def popEntries (minerTransactionHash : Hash) (baseTransaction : Transaction) :
    List (Transaction × Hash) → EStateM Fault Tables Unit
  | [] => popTransaction env baseTransaction minerTransactionHash
  | (tx, hash) :: rest => do
    popTransaction env tx hash
    popEntries minerTransactionHash baseTransaction rest

def popTransactions (block : BlockEntry) (minerTransactionHash : Hash) :
    EStateM Fault Tables Unit :=
  popEntries env minerTransactionHash block.bl.baseTransaction
    (((block.transactions.drop 1).map TransactionEntry.tx).zip block.bl.transactionHashes).reverse

end Orbis.ChainTables
