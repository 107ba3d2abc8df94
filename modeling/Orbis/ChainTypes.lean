import Mathlib.Data.UInt
import Mathlib.Tactic

/-!
# Transactions and blocks

The data of the CryptoNote ledger as the binary reader builds it. Hashes,
keys and key images are opaque names, amounts and times are 64-bit words,
output indexes 32-bit words, and the positions stored in the output tables
carry the 16-bit transaction and output counters of the source. Heights and
block positions are natural numbers.
-/

set_option autoImplicit false

namespace Orbis.ChainTypes

abbrev Hash := ℕ

abbrev KeyImage := ℕ

abbrev PublicKey := ℕ

def nullHash : Hash := 0

structure Signature where
  c : ℕ
  r : ℕ
  deriving DecidableEq

inductive TransactionInput where
  | base (blockIndex : ℕ)
  | key (amount : UInt64) (outputIndexes : List UInt32) (keyImage : KeyImage)
  | multisignature (amount : UInt64) (signatureCount : UInt8) (outputIndex : UInt32)
  deriving DecidableEq

inductive TransactionOutputTarget where
  | key (key : PublicKey)
  | multisignature (keys : List PublicKey) (requiredSignatureCount : UInt8)
  deriving DecidableEq

structure TransactionOutput where
  amount : UInt64
  target : TransactionOutputTarget
  deriving DecidableEq

structure TransactionPrefix where
  version : UInt8
  unlockTime : UInt64
  inputs : List TransactionInput
  outputs : List TransactionOutput
  extra : List UInt8
  deriving DecidableEq

def getSignaturesCount : TransactionInput → ℕ
  | .base _ => 0
  | .key _ outputIndexes _ => outputIndexes.length
  | .multisignature _ signatureCount _ => signatureCount.toNat

/-- The reader takes for every input exactly as many signatures as the
input asks for, so a transaction whose signatures do not fit its inputs is
never built. -/
structure Transaction extends TransactionPrefix where
  signatures : List (List Signature)
  signed : signatures.map List.length = inputs.map getSignaturesCount
  deriving DecidableEq

theorem bare_signed : ([] : List (List Signature)).map List.length =
    ([] : List TransactionInput).map getSignaturesCount := rfl

structure Block where
  majorVersion : UInt8
  minorVersion : UInt8
  timestamp : UInt64
  previousBlockHash : Hash
  nonce : UInt32
  baseTransaction : Transaction
  transactionHashes : List Hash
  deriving DecidableEq

structure TransactionIndex where
  block : ℕ
  transaction : UInt16
  deriving DecidableEq

structure MultisignatureOutputUsage where
  transactionIndex : TransactionIndex
  outputIndex : UInt16
  isUsed : Bool
  deriving DecidableEq

structure TransactionEntry where
  tx : Transaction
  globalOutputIndexes : List UInt32
  deriving DecidableEq

structure BlockEntry where
  bl : Block
  height : ℕ
  blockCumulativeSize : UInt64
  cumulativeDifficulty : UInt64
  alreadyGeneratedCoins : UInt64
  transactions : List TransactionEntry
  deriving DecidableEq

/-- The ways in which a call ends without returning: an exception of a
checked access, a read outside a plain vector, an `erase` in a sparse table
that has no deleted key, a read of a key whose block has left the cache, a
wrong variant, `abort`, a 16-bit counter that never reaches its bound, and a
pool that refuses a transaction it is handed back. The last one marks the end
of the fuel that bounds the recursion of the chain switch. -/
inductive Fault where
  | outOfRange
  | undefined
  | erased
  | dangling
  | badGet
  | aborted
  | endless
  | poolRefused
  | outOfFuel
  deriving DecidableEq

def isKey : TransactionOutputTarget → Bool
  | .key _ => true
  | .multisignature _ _ => false

/-- The keys that `m_outputs` and `m_spent_keys` are given for deleted
places. -/
def deletedAmount : UInt64 := 0

def nullImage : KeyImage := 0

def keyImages (inputs : List TransactionInput) : List KeyImage :=
  inputs.filterMap fun input => match input with
    | .key _ _ keyImage => some keyImage
    | _ => none

def multisignatureSpends (inputs : List TransactionInput) : List (UInt64 × UInt32) :=
  inputs.filterMap fun input => match input with
    | .multisignature amount _ outputIndex => some (amount, outputIndex)
    | _ => none

@[simp] theorem keyImages_nil : keyImages [] = [] := rfl

@[simp] theorem keyImages_base (blockIndex : ℕ) (rest : List TransactionInput) :
    keyImages (.base blockIndex :: rest) = keyImages rest := rfl

variable (amt : UInt64) {rest : List TransactionInput}

@[simp] theorem keyImages_key {ois : List UInt32} {ki : KeyImage} :
    keyImages (.key amt ois ki :: rest) = ki :: keyImages rest := rfl

variable {sc : UInt8} {oi : UInt32}

@[simp] theorem keyImages_multisignature :
    keyImages (.multisignature amt sc oi :: rest) =
      keyImages rest := rfl

@[simp] theorem multisignatureSpends_nil : multisignatureSpends [] = [] := rfl

@[simp] theorem multisignatureSpends_base (blockIndex : ℕ) (rest : List TransactionInput) :
    multisignatureSpends (.base blockIndex :: rest) = multisignatureSpends rest := rfl

@[simp] theorem multisignatureSpends_key (ois : List UInt32) (ki : KeyImage)
    (rest : List TransactionInput) :
    multisignatureSpends (.key amt ois ki :: rest) =
      multisignatureSpends rest := rfl

@[simp] theorem multisignatureSpends_multisignature :
    multisignatureSpends (.multisignature amt sc oi :: rest) =
      (amt, oi) :: multisignatureSpends rest := rfl

end Orbis.ChainTypes
