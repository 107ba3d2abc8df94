import Orbis.SignatureComplete
import Orbis.WalletKeys

/-!
# Building a transaction and checking it

`constructTransaction` takes rings of outputs in any order. It sorts their
indexes before it writes them as offsets, but signs over the keys as they were
listed, and it adds up amounts in words that may wrap. The checks of the node
read the keys in the order of the offsets and refuse sums that wrap.
-/

set_option autoImplicit false

namespace Orbis.TransactionSources

open ChainTypes ChainSignature ChainSemantic ChainTables ChainInputs ChainRun ChainImage WalletKeys
open SignatureComplete

section Build

structure TransactionSourceEntry where
  outputs : List (UInt32 × PublicKey)
  realOutput : ℕ
  realTransactionPublicKey : PublicKey
  realOutputIndexInTransaction : ℕ
  amount : UInt64
  deriving DecidableEq

structure TransactionDestinationEntry where
  amount : UInt64
  addr : AccountPublicAddress
  deriving DecidableEq

structure Signer extends KeyScheme where
  generateRingSignature :
    Hash → KeyImage → List PublicKey → SecretKey → ℕ → Option (List Signature)

/-- The signer of a curve: a derived key is the key of the address plus a
multiple of the base point, and `random` has the scalars drawn for a ring. -/
def curveSigner (ops : SignerOps)
    (generateKeyDerivation : PublicKey → SecretKey → Option KeyDerivation)
    (derivationToScalar : KeyDerivation → ℕ → ℕ) (random : Hash → KeyImage → ℕ → Signature) :
    Signer where
  secretKeyToPublicKey := ops.publicKeyOf
  generateKeyDerivation := generateKeyDerivation
  derivePublicKey derivation i base := (ops.geFromBytes base).map fun point =>
    ops.geToBytes (ops.geDoubleScalarmultBase 1 point (derivationToScalar derivation i))
  underivePublicKey derivation i key := (ops.geFromBytes key).map fun point =>
    ops.geToBytes (ops.geDoubleScalarmultBase 1 point
      (ops.scSub 0 (derivationToScalar derivation i)))
  deriveSecretKey derivation i base := ops.scAdd base (derivationToScalar derivation i)
  generateKeyImage := ops.generateKeyImage
  generateRingSignature hash image pubs secret real :=
    (ops.generateRingSignature hash image pubs secret real (random hash image)).toOption

structure Prepared where
  source : TransactionSourceEntry
  keyImage : KeyImage
  secretKey : SecretKey

def currentTransactionVersion : UInt8 := 1

def differences : UInt32 → List UInt32 → List UInt32
  | _, [] => []
  | previous, offset :: rest => (offset - previous) :: differences offset rest

def absoluteOutputOffsetsToRelative (offsets : List UInt32) : List UInt32 :=
  differences 0 (offsets.insertionSort (· ≤ ·))

variable (signer : Signer) (sender : AccountKeys)

def generateKeyImageHelper (txPublicKey : PublicKey) (realOutputIndex : ℕ) :
    Option (PublicKey × SecretKey × KeyImage) := do
  let derivation ← signer.generateKeyDerivation txPublicKey sender.viewSecretKey
  let publicKey ← signer.derivePublicKey derivation realOutputIndex sender.address.spendPublicKey
  let secretKey := signer.deriveSecretKey derivation realOutputIndex sender.spendSecretKey
  some (publicKey, secretKey, signer.generateKeyImage publicKey secretKey)

def prepareSource (src : TransactionSourceEntry) : Option Prepared := do
  let real ← src.outputs[src.realOutput]?
  let (publicKey, secretKey, image) ← generateKeyImageHelper signer sender
    src.realTransactionPublicKey src.realOutputIndexInTransaction
  if publicKey = real.2 then some ⟨src,image,secretKey⟩ else none

def Prepared.input (p : Prepared) : TransactionInput :=
  .key p.source.amount (absoluteOutputOffsetsToRelative (p.source.outputs.map Prod.fst))
    p.keyImage

def Prepared.pubs (p : Prepared) : List PublicKey := p.source.outputs.map Prod.snd

def fillOutput (txKey : SecretKey) (dst : TransactionDestinationEntry × ℕ) :
    Option TransactionOutput :=
  if dst.1.amount = 0 then none
  else do
    let derivation ← signer.generateKeyDerivation dst.1.addr.viewPublicKey txKey
    let key ← signer.derivePublicKey derivation dst.2 dst.1.addr.spendPublicKey
    some ⟨dst.1.amount,.key key⟩

def sign (hash : Hash) (p : Prepared) : Option (List Signature) :=
  signer.generateRingSignature hash p.keyImage p.pubs p.secretKey p.source.realOutput

/-- The key pair of the transaction is an argument, and its public key is
already part of `extra`. The signatures always fit the inputs, since a ring
gets one for each of its keys. -/
def constructTransaction (getPrefixHash : TransactionPrefix → Hash) (txKey : SecretKey)
    (sources : List TransactionSourceEntry) (destinations : List TransactionDestinationEntry)
    (extra : List UInt8) (unlockTime : UInt64) : Option Transaction := do
  let prepared ← sources.mapM (prepareSource signer sender)
  let shuffled := destinations.insertionSort fun de1 de2 => de1.amount ≤ de2.amount
  let outputs ← shuffled.zipIdx.mapM (fillOutput signer txKey)
  let summaryInputsMoney := (sources.map TransactionSourceEntry.amount).foldl (· + ·) 0
  let summaryOutsMoney := (outputs.map TransactionOutput.amount).foldl (· + ·) 0
  if summaryOutsMoney > summaryInputsMoney then none
  else
    let tx : TransactionPrefix :=
      ⟨currentTransactionVersion,unlockTime,prepared.map Prepared.input,outputs,extra⟩
    let signatures ← prepared.mapM (sign signer (getPrefixHash tx))
    if h : signatures.map List.length = tx.inputs.map getSignaturesCount then
      some ⟨tx,signatures,h⟩
    else none

end Build

def sortedRing (src : TransactionSourceEntry) : List (UInt32 × PublicKey) :=
  src.outputs.insertionSort fun a b => a.1 ≤ b.1

def InOrder (src : TransactionSourceEntry) : Prop :=
  (sortedRing src).map Prod.snd = src.outputs.map Prod.snd

variable {src : TransactionSourceEntry}

variable {txKey : SecretKey}

section Check

variable (env : Env) (now : UInt64) (blocks : List BlockEntry) (t : Tables)

variable {env now blocks t} {sigs : List Signature} {p : Prepared} {hash : Hash}

variable {signer : Signer} {sender : AccountKeys}

structure Listed (src : TransactionSourceEntry) : Prop where
  order : InOrder src
  size : src.outputs.length ≤ blockCacheSize

variable {sources : List TransactionSourceEntry} {prepared prep : List Prepared}
  {destinations dsts : List TransactionDestinationEntry} {tx : Transaction}

end Check

def ringSigner : Signer :=
  curveSigner sampleSigner (fun _ _ => some 0) (fun _ i => i) fun _ _ _ => ⟨3, 4⟩

def ringEnv : Env := { sampleEnv with ops := sampleSigner.toCurveOps }

def ringSender : AccountKeys := ⟨⟨40,13⟩,5,13⟩

def spend (src : TransactionSourceEntry) : Option Transaction :=
  constructTransaction ringSigner ringSender ringEnv.getPrefixHash 17 [src] [⟨3,⟨24,21⟩⟩] [1] 0

end Orbis.TransactionSources
