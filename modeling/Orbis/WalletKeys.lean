import Orbis.WalletPlaces

/-!
# Outputs and their receivers

A sender derives the key of an output from the address of the receiver and the
index of the output in the transaction. The wallet looks for the outputs of an
account in two places, and both count the keys of the transaction for a key
output, where the sender counted the outputs. A local variable that the source
reads although the call before failed to write it is an explicit fault.
-/

set_option autoImplicit false

namespace Orbis.WalletKeys

open FaultState ChainTypes WalletTransfers

abbrev SecretKey := ℕ

abbrev KeyDerivation := ℕ

structure KeyScheme where
  secretKeyToPublicKey : SecretKey → PublicKey
  generateKeyDerivation : PublicKey → SecretKey → Option KeyDerivation
  derivePublicKey : KeyDerivation → ℕ → PublicKey → Option PublicKey
  underivePublicKey : KeyDerivation → ℕ → PublicKey → Option PublicKey
  deriveSecretKey : KeyDerivation → ℕ → SecretKey → SecretKey
  generateKeyImage : PublicKey → SecretKey → KeyImage

structure AccountPublicAddress where
  spendPublicKey : PublicKey
  viewPublicKey : PublicKey
  deriving DecidableEq

structure AccountKeys where
  address : AccountPublicAddress
  spendSecretKey : SecretKey
  viewSecretKey : SecretKey

structure Lawful (scheme : KeyScheme) (accounts : AccountPublicAddress → Prop) : Prop where
  viewed : ∀ addr, accounts addr → ∃ view, scheme.secretKeyToPublicKey view = addr.viewPublicKey
  agrees : ∀ view txKey, ∃ derivation,
    scheme.generateKeyDerivation (scheme.secretKeyToPublicKey view) txKey = some derivation ∧
    scheme.generateKeyDerivation (scheme.secretKeyToPublicKey txKey) view = some derivation
  derives : ∀ addr derivation i, accounts addr →
    ∃ key, scheme.derivePublicKey derivation i addr.spendPublicKey = some key
  decodes : ∀ {derivation i base key}, scheme.derivePublicKey derivation i base = some key →
    ∀ other j, ∃ found, scheme.underivePublicKey other j key = some found
  inverse : ∀ {addr derivation i key}, accounts addr →
    (scheme.underivePublicKey derivation i key = some addr.spendPublicKey ↔
      scheme.derivePublicKey derivation i addr.spendPublicKey = some key)
  apart : ∀ {txKey addr addr' derivation derivation' i j key}, accounts addr → accounts addr' →
    scheme.generateKeyDerivation addr.viewPublicKey txKey = some derivation →
    scheme.generateKeyDerivation addr'.viewPublicKey txKey = some derivation' →
    scheme.derivePublicKey derivation i addr.spendPublicKey = some key →
    scheme.derivePublicKey derivation' j addr'.spendPublicKey = some key → addr = addr' ∧ i = j
  secret : ∀ {derivation i base key},
    scheme.derivePublicKey derivation i (scheme.secretKeyToPublicKey base) = some key →
    scheme.secretKeyToPublicKey (scheme.deriveSecretKey derivation i base) = key

section Sender

inductive BuildFault where
  /-- Cannot perform requested operation, since it will invalidate transaction signatures. -/
  | signing
  /-- Operation requires transaction secret key. -/
  | noSecretKey
  | uninitialised
  deriving DecidableEq

structure TransactionImpl where
  transactionPublicKey : PublicKey
  secretKey : Option SecretKey
  outputs : List TransactionOutput
  signatures : List (List Signature)
  deriving DecidableEq

abbrev Build := EStateM BuildFault TransactionImpl

inductive OutputCall where
  | key (amount : UInt64) (addr : AccountPublicAddress)
  | multisignature (amount : UInt64) (addresses : List AccountPublicAddress)
      (requiredSignatures : UInt32)

variable (scheme : KeyScheme)

def checkIfSigning : Build Unit := do
  if !(← get).signatures.isEmpty then throw .signing else pure ()

def txSecretKey : Build SecretKey := do
  match (← get).secretKey with
  | none => throw .noSecretKey
  | some key => pure key

def derivePublicKey (addr : AccountPublicAddress) (txKey : SecretKey) (outputIndex : ℕ) :
    Build PublicKey :=
  match (scheme.generateKeyDerivation addr.viewPublicKey txKey).bind fun derivation =>
      scheme.derivePublicKey derivation outputIndex addr.spendPublicKey with
  | none => throw .uninitialised
  | some key => pure key

def emplaceOutput (output : TransactionOutput) : Build Unit :=
  modify fun tx => { tx with outputs := tx.outputs ++ [output] }

def addOutput : OutputCall → Build ℕ
  | .key amount addr => do
    checkIfSigning
    let txKey ← txSecretKey
    let outputIndex := (← get).outputs.length
    let key ← derivePublicKey scheme addr txKey outputIndex
    emplaceOutput ⟨amount, .key key⟩
    pure outputIndex
  | .multisignature amount addresses requiredSignatures => do
    checkIfSigning
    let txKey ← txSecretKey
    let outputIndex := (← get).outputs.length
    let keys ← addresses.mapM fun addr => derivePublicKey scheme addr txKey outputIndex
    emplaceOutput ⟨amount, .multisignature keys requiredSignatures.toUInt8⟩
    pure outputIndex

def addOutputs : List OutputCall → Build Unit
  | [] => pure ()
  | call :: calls => do
    let _ ← addOutput scheme call
    addOutputs calls

def newTransaction (txKey : SecretKey) : TransactionImpl where
  transactionPublicKey := scheme.secretKeyToPublicKey txKey
  secretKey := some txKey
  outputs := []
  signatures := []

end Sender

section Receiver

variable (scheme : KeyScheme)

abbrev Found := List (PublicKey × ℕ)

def Found.of (found : Found) (spendKey : PublicKey) : List ℕ :=
  (found.filter fun entry => decide (entry.1 = spendKey)).map Prod.snd

def checkOutputKey (derivation : KeyDerivation) (key : PublicKey) (keyIndex outputIndex : ℕ)
    (spendKeys : List PublicKey) (found : Found) : Option Found := do
  let spendKey ← scheme.underivePublicKey derivation keyIndex key
  if spendKey ∈ spendKeys then some (found ++ [(spendKey, outputIndex)]) else some found

def findFrom (derivation : KeyDerivation) (spendKeys : List PublicKey) :
    ℕ → ℕ → List TransactionOutput → Found → Option Found
  | _, _, [], found => some found
  | keyIndex, idx, output :: outputs, found =>
    match output.target with
    | .key key => do
      let found ← checkOutputKey scheme derivation key keyIndex idx spendKeys found
      findFrom derivation spendKeys (keyIndex + 1) (idx + 1) outputs found
    | .multisignature keys _ => do
      let found ← keys.foldlM
        (fun found key => checkOutputKey scheme derivation key idx idx spendKeys found) found
      findFrom derivation spendKeys (keyIndex + keys.length) (idx + 1) outputs found

def findMyOutputs (tx : TransactionImpl) (viewSecretKey : SecretKey)
    (spendKeys : List PublicKey) : Option Found :=
  match scheme.generateKeyDerivation tx.transactionPublicKey viewSecretKey with
  | none => some []
  | some derivation => findFrom scheme derivation spendKeys 0 0 tx.outputs []

def isOutToKey (spendPublicKey outKey : PublicKey) (derivation : KeyDerivation) (keyIndex : ℕ) :
    Option Bool := do
  let key ← scheme.derivePublicKey derivation keyIndex spendPublicKey
  some (decide (key = outKey))

def accountFrom (spendPublicKey : PublicKey) (derivation : KeyDerivation) :
    ℕ → ℕ → List TransactionOutput → List ℕ × UInt64 → Option (List ℕ × UInt64)
  | _, _, [], r => some r
  | keyIndex, outputIndex, output :: outputs, r =>
    match output.target with
    | .key key => do
      let mine ← isOutToKey scheme spendPublicKey key derivation keyIndex
      let r := if mine then (r.1 ++ [outputIndex], r.2 + output.amount) else r
      accountFrom spendPublicKey derivation (keyIndex + 1) (outputIndex + 1) outputs r
    | .multisignature keys _ => do
      let out ← keys.foldlM (fun out key => do
        let mine ← isOutToKey scheme spendPublicKey key derivation outputIndex
        if mine then some (out ++ [outputIndex]) else some out) r.1
      accountFrom spendPublicKey derivation (keyIndex + keys.length) (outputIndex + 1) outputs
        (out, r.2)

def findOutputsToAccount (tx : TransactionImpl) (addr : AccountPublicAddress)
    (viewSecretKey : SecretKey) : Option (List ℕ × UInt64) := do
  let derivation ← scheme.generateKeyDerivation tx.transactionPublicKey viewSecretKey
  accountFrom scheme addr.spendPublicKey derivation 0 0 tx.outputs ([], 0)

def generateKeyImageHelper (ack : AccountKeys) (txPublicKey : PublicKey) (realOutputIndex : ℕ) :
    Option KeyImage := do
  let derivation ← scheme.generateKeyDerivation txPublicKey ack.viewSecretKey
  let publicKey ← scheme.derivePublicKey derivation realOutputIndex ack.address.spendPublicKey
  let secretKey := scheme.deriveSecretKey derivation realOutputIndex ack.spendSecretKey
  some (scheme.generateKeyImage publicKey secretKey)

inductive TransferFault where
  | argumentOutOfDomain
  | undefined
  deriving DecidableEq

def outputKind (account : AccountKeys) (tx : TransactionImpl) (idx : ℕ) :
    TransactionOutputTarget → Except TransferFault OutputKind
  | .key key =>
    match generateKeyImageHelper scheme account tx.transactionPublicKey idx with
    | none => .error .undefined
    | some keyImage => .ok (.key key keyImage)
  | .multisignature _ requiredSignatureCount => .ok (.multisignature requiredSignatureCount.toNat)

def outputGlobalIndex (blockHeight : ℕ) (globalIdxs : List ℕ) (idx : ℕ) : Except TransferFault ℕ :=
  if blockHeight = unconfirmedHeight then .ok unconfirmedIndex
  else match globalIdxs[idx]? with
    | none => .error .undefined
    | some globalOutputIndex => .ok globalOutputIndex

def createTransfer (account : AccountKeys) (blockHeight : ℕ) (tx : TransactionImpl)
    (globalIdxs : List ℕ) (idx : ℕ) : Except TransferFault TransactionOutputInformationIn := do
  match tx.outputs[idx]? with
  | none => .error .argumentOutOfDomain
  | some output =>
    let globalOutputIndex ← outputGlobalIndex blockHeight globalIdxs idx
    let kind ← outputKind scheme account tx idx output.target
    .ok ⟨output.amount, globalOutputIndex, idx, tx.transactionPublicKey, kind⟩

def createTransfers (account : AccountKeys) (blockHeight : ℕ) (tx : TransactionImpl)
    (outputs globalIdxs : List ℕ) : Except TransferFault (List TransactionOutputInformationIn) :=
  outputs.mapM (createTransfer scheme account blockHeight tx globalIdxs)

end Receiver

section Sent

variable (scheme : KeyScheme) (txKey : SecretKey)

def IsFor (outputIndex : ℕ) (addr : AccountPublicAddress) (key : PublicKey) : Prop :=
  ∃ derivation, scheme.generateKeyDerivation addr.viewPublicKey txKey = some derivation ∧
    scheme.derivePublicKey derivation outputIndex addr.spendPublicKey = some key

inductive SentAs (outputIndex : ℕ) : OutputCall → TransactionOutput → Prop
  | key {amount : UInt64} {addr : AccountPublicAddress} {key : PublicKey}
      (isFor : IsFor scheme txKey outputIndex addr key) :
      SentAs outputIndex (.key amount addr) ⟨amount, .key key⟩
  | multisignature {amount : UInt64} {addresses : List AccountPublicAddress}
      {requiredSignatures : UInt32} {keys : List PublicKey}
      (areFor : List.Forall₂ (IsFor scheme txKey outputIndex) addresses keys) :
      SentAs outputIndex (.multisignature amount addresses requiredSignatures)
        ⟨amount, .multisignature keys requiredSignatures.toUInt8⟩

inductive Sent : ℕ → List OutputCall → List TransactionOutput → Prop
  | nil (i : ℕ) : Sent i [] []
  | cons {i : ℕ} {call : OutputCall} {calls : List OutputCall} {output : TransactionOutput}
      {outputs : List TransactionOutput} (first : SentAs scheme txKey i call output)
      (rest : Sent (i + 1) calls outputs) : Sent i (call :: calls) (output :: outputs)

def OutputCall.addresses : OutputCall → List AccountPublicAddress
  | .key _ addr => [addr]
  | .multisignature _ addresses _ => addresses

variable {scheme txKey} {accounts : AccountPublicAddress → Prop} (hlaw : Lawful scheme accounts)
  (tx : TransactionImpl)

include hlaw

theorem derivePublicKey_ok {addr : AccountPublicAddress} (haddr : accounts addr) (i : ℕ) :
    ∃ key, IsFor scheme txKey i addr key ∧ derivePublicKey scheme addr txKey i tx = .ok key tx := by
  obtain ⟨view,hv⟩ := hlaw.viewed addr haddr
  obtain ⟨dv,hs,-⟩ := hlaw.agrees view txKey
  rw [hv] at hs
  obtain ⟨key,hkey⟩ := hlaw.derives addr dv i haddr
  refine ⟨key,⟨dv,hs,hkey⟩,?_⟩
  rw [derivePublicKey, hs, Option.bind_some, hkey]
  rfl

theorem deriveKeys_ok {addrs : List AccountPublicAddress} (hads : ∀ addr ∈ addrs, accounts addr)
    (i : ℕ) : ∃ keys, List.Forall₂ (IsFor scheme txKey i) addrs keys ∧
      addrs.mapM (fun addr => derivePublicKey scheme addr txKey i) tx = .ok keys tx := by
  induction addrs with
  | nil => exact ⟨[],.nil,rfl⟩
  | cons _ _ ih =>
    obtain ⟨hfst,hlat⟩ := List.forall_mem_cons.mp hads
    obtain ⟨key,hkey,hrun⟩ := derivePublicKey_ok hlaw tx hfst i
    obtain ⟨keys,hk,hr⟩ := ih hlat
    refine ⟨key :: keys,.cons hkey hk,?_⟩
    rw [List.mapM_cons, bind_of_ok hrun, bind_of_ok hr]
    rfl

theorem addOutput_ok {call : OutputCall} (hc : ∀ addr ∈ call.addresses, accounts addr)
    (hkey : tx.secretKey = some txKey) (hsgd : tx.signatures = []) :
    ∃ out, SentAs scheme txKey tx.outputs.length call out ∧ addOutput scheme call tx =
        .ok tx.outputs.length { tx with outputs := tx.outputs ++ [out] } := by
  have hs : checkIfSigning tx = .ok () tx := by
    rw [checkIfSigning, bind_of_ok (get_run tx), hsgd]
    rfl
  have hse : txSecretKey tx = .ok txKey tx := by
    rw [txSecretKey, bind_of_ok (get_run tx), hkey]
    rfl
  cases call with
  | key amt addr =>
    obtain ⟨key,hfor,hrun⟩ := derivePublicKey_ok hlaw tx
      (hc addr (List.mem_singleton_self addr)) tx.outputs.length
    refine ⟨⟨amt, .key key⟩,.key hfor,?_⟩
    rw [addOutput, bind_of_ok hs, bind_of_ok hse, bind_of_ok (get_run tx), bind_of_ok hrun]
    rfl
  | multisignature amt addrs requiredSignatures =>
    have hads : ∀ addr ∈ addrs, accounts addr := hc
    obtain ⟨keys,hfor,hrun⟩ := deriveKeys_ok hlaw tx hads tx.outputs.length
    refine ⟨⟨amt, .multisignature keys requiredSignatures.toUInt8⟩,.multisignature hfor,?_⟩
    rw [addOutput, bind_of_ok hs, bind_of_ok hse, bind_of_ok (get_run tx), bind_of_ok hrun]
    rfl

theorem addOutputs_ok {cls : List OutputCall}
    (hc : ∀ call ∈ cls, ∀ addr ∈ call.addresses, accounts addr) (hkey : tx.secretKey = some txKey)
    (hsgd : tx.signatures = []) : ∃ outs, Sent scheme txKey tx.outputs.length cls outs ∧
      addOutputs scheme cls tx = .ok () { tx with outputs := tx.outputs ++ outs } := by
  induction cls generalizing tx with
  | nil =>
    refine ⟨[],.nil _,?_⟩
    rw [List.append_nil]
    rfl
  | cons _ _ ih =>
    obtain ⟨hfst,hlat⟩ := List.forall_mem_cons.mp hc
    obtain ⟨out,hsent,hrun⟩ := addOutput_ok hlaw tx hfst hkey hsgd
    obtain ⟨outs,hr,hru⟩ := ih { tx with outputs := tx.outputs ++ [out] } hlat hkey hsgd
    rw [List.length_append] at hr
    refine ⟨out :: outs,.cons hsent hr,?_⟩
    rw [addOutputs, bind_of_ok hrun, hru, List.append_assoc]
    rfl

end Sent

section Reports

variable (scheme : KeyScheme) (derivation : KeyDerivation) (spendKey : PublicKey)

def targetKeys : TransactionOutputTarget → List PublicKey
  | .key key => [key]
  | .multisignature keys _ => keys

def triedIndex (keyIndex outputIndex : ℕ) : TransactionOutputTarget → ℕ
  | .key _ => keyIndex
  | .multisignature _ _ => outputIndex

def isMine (i : ℕ) (key : PublicKey) : Bool :=
  decide (scheme.derivePublicKey derivation i spendKey = some key)

def mine (keyIndex outputIndex : ℕ) (target : TransactionOutputTarget) : List PublicKey :=
  (targetKeys target).filter
    (isMine scheme derivation spendKey (triedIndex keyIndex outputIndex target))

def report : ℕ → ℕ → List TransactionOutput → List ℕ
  | _, _, [] => []
  | keyIndex, outputIndex, output :: outputs =>
    (mine scheme derivation spendKey keyIndex outputIndex output.target).map
        (fun _ => outputIndex) ++
      report (keyIndex + (targetKeys output.target).length) (outputIndex + 1) outputs

def keysBefore (outputs : List TransactionOutput) (m : ℕ) : ℕ :=
  ((outputs.take m).map fun output => (targetKeys output.target).length).sum

variable {scheme derivation spendKey} {kx oi : ℕ} {outputs : List TransactionOutput}

theorem mem_report {j : ℕ} : j ∈ report scheme derivation spendKey kx oi outputs ↔
    ∃ m out, outputs[m]? = some out ∧ j = oi + m ∧ ∃ key ∈ targetKeys out.target,
      scheme.derivePublicKey derivation
        (triedIndex (kx + keysBefore outputs m) j out.target) spendKey = some key := by
  induction outputs generalizing kx oi with
  | nil => simp [report]
  | cons out _ ih =>
    rw [report, List.mem_append, ih]
    have hfst : j ∈ (mine scheme derivation spendKey kx oi out.target).map
        (fun _ => oi) ↔ j = oi ∧ ∃ key ∈ targetKeys out.target,
          scheme.derivePublicKey derivation (triedIndex kx oi out.target) spendKey = some key := by
      rw [List.mem_map]
      constructor
      · rintro ⟨key,hkey,rfl⟩
        obtain ⟨hmem,hm⟩ := List.mem_filter.mp hkey
        exact ⟨rfl,key,hmem,of_decide_eq_true hm⟩
      · rintro ⟨rfl,key,hmem,hm⟩
        exact ⟨key,List.mem_filter.mpr ⟨hmem,decide_eq_true hm⟩,rfl⟩
    rw [hfst]
    constructor
    · rintro (⟨rfl,hkey⟩ | ⟨m,o,hoth,rfl,hkey⟩)
      · exact ⟨0,out,rfl,rfl,hkey⟩
      · refine ⟨m + 1,o,hoth,by omega,?_⟩
        rw [keysBefore, List.take_succ_cons, List.map_cons, List.sum_cons, ← keysBefore,
          ← Nat.add_assoc]
        exact hkey
    · rintro ⟨m,o,hoth,rfl,hkey⟩
      cases m with
      | zero =>
        cases hoth
        exact .inl ⟨rfl,hkey⟩
      | succ m =>
        refine .inr ⟨m,o,hoth,by omega,?_⟩
        rw [keysBefore, List.take_succ_cons, List.map_cons, List.sum_cons, ← keysBefore,
          ← Nat.add_assoc] at hkey
        exact hkey

section Search

variable {accounts : AccountPublicAddress → Prop} (hlaw : Lawful scheme accounts)
  {addr : AccountPublicAddress} (haddr : accounts addr) {sks : List PublicKey}
  (hspend : addr.spendPublicKey ∈ sks) {found : Found}

theorem found_append (found more : Found) :
    (found ++ more).of spendKey = found.of spendKey ++ more.of spendKey := by
  rw [Found.of, List.filter_append, List.map_append]
  rfl

include hlaw haddr hspend

theorem checkOutputKey_ok {key : PublicKey} (found : Found) (outputIndex : ℕ)
    (hkey : ∃ base, scheme.underivePublicKey derivation kx key = some base) :
    ∃ res, checkOutputKey scheme derivation key kx outputIndex sks found = some res ∧
      res.of addr.spendPublicKey = found.of addr.spendPublicKey ++
        ([key].filter (isMine scheme derivation addr.spendPublicKey kx)).map
          fun _ => outputIndex := by
  obtain ⟨base,hb⟩ := hkey
  have hm : isMine scheme derivation addr.spendPublicKey kx key =
      decide (base = addr.spendPublicKey) := by
    apply decide_eq_decide.mpr
    rw [← hlaw.inverse haddr, hb, Option.some_inj]
  rw [checkOutputKey, hb, List.filter_singleton, hm]
  by_cases hin : base ∈ sks
  · refine ⟨found ++ [(base, outputIndex)],if_pos hin,?_⟩
    rw [found_append]
    by_cases heq : base = addr.spendPublicKey <;> simp [heq, Found.of]
  · have hne : base ≠ addr.spendPublicKey := fun heq => hin (heq ▸ hspend)
    refine ⟨found,if_neg hin,?_⟩
    simp [hne]

theorem checkOutputKeys_ok {keys : List PublicKey} (found : Found) (outputIndex : ℕ)
    (hk : ∀ key ∈ keys, ∃ base, scheme.underivePublicKey derivation kx key = some base) :
    ∃ res, keys.foldlM (fun found key =>
        checkOutputKey scheme derivation key kx outputIndex sks found) found = some res ∧
      res.of addr.spendPublicKey = found.of addr.spendPublicKey ++
        (keys.filter (isMine scheme derivation addr.spendPublicKey kx)).map
          fun _ => outputIndex := by
  induction keys generalizing found with
  | nil => exact ⟨found,rfl,(List.append_nil _).symm⟩
  | cons _ _ ih =>
    obtain ⟨hfst,hlat⟩ := List.forall_mem_cons.mp hk
    obtain ⟨next,hn,hof⟩ := checkOutputKey_ok hlaw haddr hspend found outputIndex hfst
    obtain ⟨res,hr,hres⟩ := ih next hlat
    refine ⟨res,?_,?_⟩
    · rw [List.foldlM_cons, hn]
      exact hr
    · rw [hres, hof, List.append_assoc, ← List.map_append, ← List.filter_append]
      rfl

theorem findFrom_ok (found : Found) (hk : ∀ out ∈ outputs, ∀ key ∈ targetKeys out.target, ∀ i,
      ∃ base, scheme.underivePublicKey derivation i key = some base) :
    ∃ res, findFrom scheme derivation sks kx oi outputs found = some res ∧
      res.of addr.spendPublicKey = found.of addr.spendPublicKey ++
        report scheme derivation addr.spendPublicKey kx oi outputs := by
  induction outputs generalizing kx oi found with
  | nil => exact ⟨found,rfl,(List.append_nil _).symm⟩
  | cons out _ ih =>
    obtain ⟨hfst,hlat⟩ := List.forall_mem_cons.mp hk
    rw [findFrom, report, mine]
    cases htgt : out.target with
    | key key =>
      rw [htgt] at hfst
      obtain ⟨next,hn,hof⟩ := checkOutputKey_ok hlaw haddr hspend found oi
        (hfst key (List.mem_singleton_self key) kx)
      obtain ⟨res,hr,hres⟩ := ih next hlat
      refine ⟨res,?_,?_⟩
      · dsimp only
        rw [hn]
        exact hr
      · rw [hres, hof, List.append_assoc]
        rfl
    | multisignature keys _ =>
      rw [htgt] at hfst
      have hm : ∀ key ∈ keys, ∃ base, scheme.underivePublicKey derivation oi key = some base :=
        fun key hkey => hfst key hkey oi
      obtain ⟨next,hn,hof⟩ := checkOutputKeys_ok hlaw haddr hspend found oi hm
      obtain ⟨res,hr,hres⟩ := ih next hlat
      refine ⟨res,?_,?_⟩
      · dsimp only
        rw [hn]
        exact hr
      · rw [hres, hof, List.append_assoc]
        rfl

omit hspend

theorem isOutToKey_ok (keyIndex : ℕ) (key : PublicKey) :
    isOutToKey scheme addr.spendPublicKey key derivation keyIndex =
      some (isMine scheme derivation addr.spendPublicKey keyIndex key) := by
  obtain ⟨_,hd⟩ := hlaw.derives addr derivation keyIndex haddr
  rw [isOutToKey, isMine, hd]
  simp

theorem accountKeys_ok (keys : List PublicKey) (out : List ℕ) (outputIndex : ℕ) :
    keys.foldlM (fun out key => do
        let mine ← isOutToKey scheme addr.spendPublicKey key derivation outputIndex
        if mine then some (out ++ [outputIndex]) else some out) out =
      some (out ++ (keys.filter (isMine scheme derivation addr.spendPublicKey outputIndex)).map
        fun _ => outputIndex) := by
  induction keys generalizing out with
  | nil => exact congrArg some (List.append_nil out).symm
  | cons key keys ih =>
    rw [List.foldlM_cons, isOutToKey_ok hlaw haddr]
    by_cases hm : isMine scheme derivation addr.spendPublicKey outputIndex key = true
    · rw [List.filter_cons_of_pos hm, hm]
      show List.foldlM _ (out ++ [outputIndex]) keys = _
      rw [ih, List.append_assoc]
      rfl
    · rw [List.filter_cons_of_neg hm, Bool.eq_false_iff.mpr hm]
      exact ih out

theorem accountFrom_ok (r : List ℕ × UInt64) :
    ∃ amt, accountFrom scheme addr.spendPublicKey derivation kx oi outputs r =
      some (r.1 ++ report scheme derivation addr.spendPublicKey kx oi outputs, amt) := by
  induction outputs generalizing kx oi r with
  | nil => exact ⟨r.2,by rw [report, List.append_nil]; rfl⟩
  | cons out outputs ih =>
    rw [accountFrom, report, mine]
    cases htgt : out.target with
    | key key =>
      dsimp only
      rw [isOutToKey_ok hlaw haddr]
      show ∃ amt, accountFrom scheme addr.spendPublicKey derivation (kx + 1)
        (oi + 1) outputs _ = some (r.1 ++ (([key].filter (isMine scheme derivation
          addr.spendPublicKey kx)).map _ ++ _), amt)
      by_cases hm : isMine scheme derivation addr.spendPublicKey kx key = true
      · rw [List.filter_cons_of_pos hm, if_pos hm, ← List.append_assoc]
        exact ih (r.1 ++ [oi], r.2 + out.amount)
      · rw [List.filter_cons_of_neg hm, if_neg hm]
        exact ih r
    | multisignature keys _ =>
      dsimp only
      rw [accountKeys_ok hlaw haddr, ← List.append_assoc]
      exact ih (r.1 ++ (keys.filter (isMine scheme derivation addr.spendPublicKey
        oi)).map fun _ => oi, r.2)

end Search

end Reports

variable {cls : List OutputCall} {acct : AccountKeys}

section Agreement

def Addressed (calls : List OutputCall) (addr : AccountPublicAddress) (idx : ℕ) : Prop :=
  ∃ call, calls[idx]? = some call ∧ addr ∈ call.addresses

def addressesBefore (calls : List OutputCall) (m : ℕ) : ℕ :=
  ((calls.take m).map fun call => call.addresses.length).sum

def Fits (keyIndex outputIndex : ℕ) : OutputCall → Prop
  | .key _ _ => keyIndex = outputIndex
  | .multisignature _ _ _ => True

variable {scheme : KeyScheme} {txKey : SecretKey} {i : ℕ} {call : OutputCall}
  {out : TransactionOutput} {outputs : List TransactionOutput}

theorem SentAs.count (h : SentAs scheme txKey i call out) :
    (targetKeys out.target).length = call.addresses.length := by
  cases h with
  | key _ => rfl
  | multisignature areFor => exact areFor.length_eq.symm

theorem sent_at (h : Sent scheme txKey i cls outputs) (m : ℕ) :
    keysBefore outputs m = addressesBefore cls m ∧
      ((outputs[m]? = none ∧ cls[m]? = none) ∨ ∃ call out, outputs[m]? = some out ∧
        cls[m]? = some call ∧ SentAs scheme txKey (i + m) call out) := by
  induction h generalizing m with
  | nil _ =>
    refine ⟨?_,.inl ⟨rfl,rfl⟩⟩
    rw [keysBefore, addressesBefore, List.take_nil, List.take_nil]
    rfl
  | @cons i call _ out _ hfst _ ih =>
    cases m with
    | zero => exact ⟨rfl,.inr ⟨call,out,rfl,rfl,hfst⟩⟩
    | succ m =>
      obtain ⟨hcnt,hat⟩ := ih m
      refine ⟨?_,?_⟩
      · rw [keysBefore, addressesBefore, List.take_succ_cons, List.take_succ_cons, List.map_cons,
          List.map_cons, List.sum_cons, List.sum_cons, hfst.count]
        exact congrArg (call.addresses.length + ·) hcnt
      · rw [show i + (m + 1) = i + 1 + m by omega]
        exact hat

section Lawful

variable {accounts : AccountPublicAddress → Prop} (hlaw : Lawful scheme accounts)
  {addr : AccountPublicAddress} (haddr : accounts addr) {derivation : KeyDerivation}
  (hderivation : scheme.generateKeyDerivation addr.viewPublicKey txKey = some derivation)

include hlaw haddr hderivation

theorem isFor_iff {addr' : AccountPublicAddress} (haddr' : accounts addr') {key : PublicKey}
    (hkey : IsFor scheme txKey i addr' key) (tried : ℕ) :
    scheme.derivePublicKey derivation tried addr.spendPublicKey = some key ↔
      addr = addr' ∧ tried = i := by
  obtain ⟨_,hs,hd⟩ := hkey
  constructor
  · intro hm
    exact hlaw.apart haddr haddr' hderivation hs hm hd
  · rintro ⟨rfl,rfl⟩
    rw [hderivation] at hs
    cases hs
    exact hd

theorem keysFor_iff {addrs : List AccountPublicAddress} {keys : List PublicKey}
    (hads : ∀ addr ∈ addrs, accounts addr) (h : List.Forall₂ (IsFor scheme txKey i) addrs keys) :
    (∃ key ∈ keys, scheme.derivePublicKey derivation i addr.spendPublicKey = some key) ↔
      addr ∈ addrs := by
  induction h with
  | nil => simp
  | cons hkey _ ih =>
    obtain ⟨hfst,hlat⟩ := List.forall_mem_cons.mp hads
    have hiff := isFor_iff hlaw haddr hderivation hfst hkey i
    rw [List.exists_mem_cons_iff, List.mem_cons, ih hlat, hiff, and_iff_left rfl]

theorem mine_iff (hc : ∀ addr ∈ call.addresses, accounts addr) (h : SentAs scheme txKey i call out)
    (kx : ℕ) : (∃ key ∈ targetKeys out.target, scheme.derivePublicKey derivation
        (triedIndex kx i out.target) addr.spendPublicKey = some key) ↔
      addr ∈ call.addresses ∧ Fits kx i call := by
  cases h with
  | @key _ addr' _ isFor =>
    have hiff := isFor_iff hlaw haddr hderivation
      (hc addr' (List.mem_singleton_self addr')) isFor kx
    simp [targetKeys, triedIndex, OutputCall.addresses, Fits, hiff]
  | multisignature areFor =>
    rw [Fits, and_true]
    exact keysFor_iff hlaw haddr hderivation hc areFor

theorem reported_iff (hca : ∀ call ∈ cls, ∀ addr ∈ call.addresses, accounts addr)
    (h : Sent scheme txKey 0 cls outputs) (idx : ℕ) :
    idx ∈ report scheme derivation addr.spendPublicKey 0 0 outputs ↔
      ∃ call, cls[idx]? = some call ∧ addr ∈ call.addresses ∧
        Fits (addressesBefore cls idx) idx call := by
  rw [mem_report]
  constructor
  · rintro ⟨m,_,ho,rfl,hkey⟩
    rw [Nat.zero_add] at hkey ⊢
    obtain ⟨hcnt,⟨hn,-⟩ | ⟨call,sent,hsent,hc,has⟩⟩ := sent_at h m
    · rw [hn] at ho
      cases ho
    · rw [hsent] at ho
      cases ho
      rw [Nat.zero_add] at hkey has
      rw [hcnt] at hkey
      exact ⟨call,hc,(mine_iff hlaw haddr hderivation
        (hca call (List.mem_of_getElem? hc)) has _).mp hkey⟩
  · rintro ⟨call,hc,hm⟩
    obtain ⟨hcnt,⟨-,hn⟩ | ⟨_,sent,hsent,hc',has⟩⟩ := sent_at h idx
    · rw [hn] at hc
      cases hc
    · rw [hc'] at hc
      cases hc
      rw [Nat.zero_add] at has
      refine ⟨idx,sent,hsent,(Nat.zero_add idx).symm,?_⟩
      rw [Nat.zero_add, hcnt]
      exact (mine_iff hlaw haddr hderivation (hca call (List.mem_of_getElem? hc')) has _).mpr hm

omit haddr hderivation

theorem sent_decodes (h : Sent scheme txKey i cls outputs) :
    ∀ out ∈ outputs, ∀ key ∈ targetKeys out.target, ∀ o j,
      ∃ base, scheme.underivePublicKey o j key = some base := by
  have hone : ∀ {i addr key}, IsFor scheme txKey i addr key →
      ∀ o j, ∃ base, scheme.underivePublicKey o j key = some base := by
    rintro i addr key ⟨derivation,-,hkey⟩
    exact hlaw.decodes hkey
  induction h with
  | nil _ => simp
  | cons hfst _ ih =>
    refine List.forall_mem_cons.mpr ⟨?_,ih⟩
    cases hfst with
    | key isFor =>
      intro key hkey
      rw [List.mem_singleton.mp hkey]
      exact hone isFor
    | multisignature areFor =>
      dsimp only [targetKeys]
      induction areFor with
      | nil => simp
      | cons hkey _ ihkeys => exact List.forall_mem_cons.mpr ⟨hone hkey,ihkeys⟩

end Lawful

end Agreement

section Images

variable {scheme : KeyScheme}

def ImageOf (scheme : KeyScheme) (key : PublicKey) (keyImage : KeyImage) : Prop :=
  ∃ secretKey, scheme.secretKeyToPublicKey secretKey = key ∧
    keyImage = scheme.generateKeyImage key secretKey

def Shows (scheme : KeyScheme) : TransactionOutputTarget → OutputKind → Prop
  | .key key, kind => ∃ keyImage, kind = .key key keyImage ∧ ImageOf scheme key keyImage
  | .multisignature _ count, kind => kind = .multisignature count.toNat

structure Describes (scheme : KeyScheme) (tx : TransactionImpl) (idx : ℕ)
    (t : TransactionOutputInformationIn) : Prop where
  place : t.outputInTransaction = idx
  txKey : t.transactionPublicKey = tx.transactionPublicKey
  output : ∃ output, tx.outputs[idx]? = some output ∧ t.amount = output.amount ∧
    Shows scheme output.target t.kind

theorem outputGlobalIndex_ok {blockHeight idx : ℕ} {gi : List ℕ}
    (h : blockHeight = unconfirmedHeight ∨ idx < gi.length) :
    ∃ globalOutputIndex, outputGlobalIndex blockHeight gi idx = .ok globalOutputIndex := by
  unfold outputGlobalIndex
  by_cases hblk : blockHeight = unconfirmedHeight
  · exact ⟨unconfirmedIndex,if_pos hblk⟩
  · have hlen := h.resolve_left hblk
    refine ⟨gi[idx],?_⟩
    rw [if_neg hblk, List.getElem?_eq_getElem hlen]

structure Matching (scheme : KeyScheme) (account : AccountKeys) : Prop where
  view : scheme.secretKeyToPublicKey account.viewSecretKey = account.address.viewPublicKey
  spend : scheme.secretKeyToPublicKey account.spendSecretKey = account.address.spendPublicKey

variable {txKey : SecretKey} {accounts : AccountPublicAddress → Prop}
  (hlaw : Lawful scheme accounts) {tx : TransactionImpl} (hmatching : Matching scheme acct)
  (hkey : tx.transactionPublicKey = scheme.secretKeyToPublicKey txKey)
  (hsent : Sent scheme txKey 0 cls tx.outputs)

include hlaw hmatching hkey

theorem shared_derivation : ∃ dv,
    scheme.generateKeyDerivation acct.address.viewPublicKey txKey = some dv ∧
    scheme.generateKeyDerivation tx.transactionPublicKey acct.viewSecretKey = some dv := by
  rw [hkey, ← hmatching.view]
  exact hlaw.agrees acct.viewSecretKey txKey

theorem outputKind_ok {idx : ℕ} {call : OutputCall} {out : TransactionOutput}
    (has : SentAs scheme txKey idx call out) (haddr : acct.address ∈ call.addresses) :
    ∃ kind, outputKind scheme acct tx idx out.target = .ok kind ∧ Shows scheme out.target kind := by
  obtain ⟨_,hs,hr⟩ := shared_derivation hlaw hmatching hkey
  cases has with
  | @key _ _ _ isFor =>
    obtain ⟨_,hs',hd⟩ := isFor
    obtain rfl := List.mem_singleton.mp haddr
    rw [hs] at hs'
    cases hs'
    have hse := hlaw.secret (hmatching.spend.symm ▸ hd)
    refine ⟨_,?_,_,rfl,_,hse,rfl⟩
    simp only [outputKind, generateKeyImageHelper, hr, hd, Option.bind_eq_bind, Option.bind_some]
  | multisignature _ => exact ⟨_,rfl,rfl⟩

include hsent

theorem createTransfer_ok {idx blockHeight : ℕ} {gi : List ℕ}
    (hidx : Addressed cls acct.address idx)
    (hglb : blockHeight = unconfirmedHeight ∨ tx.outputs.length ≤ gi.length) :
    ∃ t, createTransfer scheme acct blockHeight tx gi idx = .ok t ∧ Describes scheme tx idx t := by
  obtain ⟨_,hc,haddr⟩ := hidx
  obtain ⟨-,⟨-,hn⟩ | ⟨_,out,ho,hc',has⟩⟩ := sent_at hsent idx
  · rw [hn] at hc
    cases hc
  rw [hc'] at hc
  cases hc
  rw [Nat.zero_add] at has
  have hlen := (List.getElem?_eq_some_iff.mp ho).1
  obtain ⟨globalOutputIndex,hix⟩ :=
    outputGlobalIndex_ok (hglb.imp_right fun hle => hlen.trans_le hle)
  obtain ⟨kind,hrun,hk⟩ := outputKind_ok hlaw hmatching hkey has haddr
  refine ⟨⟨out.amount, globalOutputIndex, idx, tx.transactionPublicKey, kind⟩,?_,
    ⟨rfl,rfl,out,ho,rfl,hk⟩⟩
  rw [createTransfer, ho]
  dsimp only
  rw [hix]
  show (outputKind scheme acct tx idx out.target >>= _) = _
  rw [hrun]
  rfl

theorem createTransfers_ok {outs gi : List ℕ} {blockHeight : ℕ}
    (ho : ∀ idx ∈ outs, Addressed cls acct.address idx)
    (hglb : blockHeight = unconfirmedHeight ∨ tx.outputs.length ≤ gi.length) :
    ∃ transfers, createTransfers scheme acct blockHeight tx outs gi =
        .ok transfers ∧ List.Forall₂ (Describes scheme tx) outs transfers := by
  induction outs with
  | nil => exact ⟨[],rfl,.nil⟩
  | cons _ outs ih =>
    obtain ⟨hfst,hlat⟩ := List.forall_mem_cons.mp ho
    obtain ⟨t,hrun,hd⟩ := createTransfer_ok hlaw hmatching hkey hsent hfst hglb
    obtain ⟨transfers,hr,hall⟩ := ih hlat
    refine ⟨t :: transfers,?_,.cons hd hall⟩
    rw [createTransfers, List.mapM_cons, hrun]
    show (createTransfers scheme acct blockHeight tx outs gi >>= _) = _
    rw [hr]
    rfl

variable (tx) (haccount : accounts acct.address)

include haccount

theorem searches_ok : ∃ dv,
    scheme.generateKeyDerivation acct.address.viewPublicKey txKey = some dv ∧
    (∀ sks : List PublicKey, acct.address.spendPublicKey ∈ sks →
      ∃ found, findMyOutputs scheme tx acct.viewSecretKey sks = some found ∧
        found.of acct.address.spendPublicKey =
          report scheme dv acct.address.spendPublicKey 0 0 tx.outputs) ∧
    ∃ amt, findOutputsToAccount scheme tx acct.address acct.viewSecretKey =
      some (report scheme dv acct.address.spendPublicKey 0 0 tx.outputs, amt) := by
  obtain ⟨dv,hs,hr⟩ := shared_derivation hlaw hmatching hkey
  refine ⟨dv,hs,?_,?_⟩
  · intro sks hspend
    rw [findMyOutputs, hr]
    exact findFrom_ok hlaw haccount hspend [] fun out ho key hmem i =>
      sent_decodes hlaw hsent out ho key hmem dv i
  · rw [findOutputsToAccount, hr]
    exact accountFrom_ok hlaw haccount ([], 0)

end Images

structure Agreement (scheme : KeyScheme) (tx : TransactionImpl) (calls : List OutputCall)
    (account : AccountKeys) : Prop where
  consumer : ∀ spendKeys : List PublicKey, account.address.spendPublicKey ∈ spendKeys →
    ∃ found, findMyOutputs scheme tx account.viewSecretKey spendKeys = some found ∧
      ∀ idx, idx ∈ found.of account.address.spendPublicKey ↔ Addressed calls account.address idx
  search : ∃ out amount, findOutputsToAccount scheme tx account.address account.viewSecretKey =
    some (out, amount) ∧ ∀ idx, idx ∈ out ↔ Addressed calls account.address idx
  images : ∀ (blockHeight : ℕ) (outputs globalIdxs : List ℕ),
    (∀ idx ∈ outputs, Addressed calls account.address idx) →
    blockHeight = unconfirmedHeight ∨ tx.outputs.length ≤ globalIdxs.length →
    ∃ transfers, createTransfers scheme account blockHeight tx outputs globalIdxs =
      .ok transfers ∧ List.Forall₂ (Describes scheme tx) outputs transfers

/-- A sender's outputs are found exactly if every key output for the account has
as many keys as outputs before it. -/
theorem receivers_agree_iff {scheme : KeyScheme} {accounts : AccountPublicAddress → Prop}
    (hlaw : Lawful scheme accounts) (txKey : SecretKey) (calls : List OutputCall)
    (hcalls : ∀ call ∈ calls, ∀ addr ∈ call.addresses, accounts addr) (account : AccountKeys)
    (haccount : accounts account.address) (hmatching : Matching scheme account) :
    ∃ tx, addOutputs scheme calls (newTransaction scheme txKey) = .ok () tx ∧
      (Agreement scheme tx calls account ↔ ∀ idx amount,
        calls[idx]? = some (.key amount account.address) → addressesBefore calls idx = idx) := by
  obtain ⟨outputs,hsent,hrun⟩ := addOutputs_ok hlaw (newTransaction scheme txKey) hcalls rfl rfl
  refine ⟨_,hrun,?_⟩
  rw [show (newTransaction scheme txKey).outputs = [] from rfl] at hsent ⊢
  rw [List.nil_append]
  obtain ⟨derivation,hs,hco,amount,hone⟩ := searches_ok hlaw
    { newTransaction scheme txKey with outputs := outputs } hmatching rfl hsent haccount
  have hrep := reported_iff hlaw haccount hs hcalls hsent
  constructor
  · intro ha idx value hc
    obtain ⟨found,hfd,hiff⟩ := ha.consumer _ (List.mem_singleton_self _)
    obtain ⟨_,hfd',hof⟩ := hco _ (List.mem_singleton_self _)
    rw [hfd] at hfd'
    cases hfd'
    have hidx := (hiff idx).mpr ⟨_,hc,List.mem_singleton_self _⟩
    rw [hof] at hidx
    obtain ⟨call,hc',-,hf⟩ := (hrep idx).mp hidx
    rw [hc] at hc'
    cases hc'
    exact hf
  · intro h
    have hex : ∀ idx, idx ∈ report scheme derivation account.address.spendPublicKey 0 0 outputs ↔
        Addressed calls account.address idx := by
      intro idx
      rw [hrep]
      constructor
      · rintro ⟨call,hc,haddr,-⟩
        exact ⟨call,hc,haddr⟩
      · rintro ⟨call,hc,haddr⟩
        refine ⟨call,hc,haddr,?_⟩
        cases call with
        | key value _ =>
          obtain rfl := List.mem_singleton.mp haddr
          exact h idx value hc
        | multisignature _ _ _ => trivial
    constructor
    · intro spendKeys hspend
      obtain ⟨found,hfd,hof⟩ := hco spendKeys hspend
      refine ⟨found,hfd,?_⟩
      rw [hof]
      exact hex
    · exact ⟨_,amount,hone,hex⟩
    · intro blockHeight outputs globalIdxs ho hglb
      exact createTransfers_ok hlaw hmatching rfl hsent ho hglb

def sampleScheme : KeyScheme where
  secretKeyToPublicKey secretKey := secretKey
  generateKeyDerivation publicKey secretKey := some (publicKey + secretKey)
  derivePublicKey derivation i base := some (Nat.pair derivation (Nat.pair i base))
  underivePublicKey derivation i key :=
    if key.unpair.1 = derivation ∧ key.unpair.2.unpair.1 = i then some key.unpair.2.unpair.2
    else some 0
  deriveSecretKey derivation i base := Nat.pair derivation (Nat.pair i base)
  generateKeyImage _ secretKey := secretKey

def sampleAccounts (addr : AccountPublicAddress) : Prop := addr.spendPublicKey ≠ 0

theorem sampleScheme_lawful : Lawful sampleScheme sampleAccounts where
  viewed addr _ := ⟨addr.viewPublicKey,rfl⟩
  agrees view txKey := ⟨view + txKey,rfl,congrArg some (Nat.add_comm txKey view)⟩
  derives addr dv i _ := ⟨_,rfl⟩
  decodes _ o j := by
    dsimp only [sampleScheme]
    split_ifs <;> exact ⟨_,rfl⟩
  inverse {addr dv i key} haddr := by
    dsimp only [sampleScheme]
    constructor
    · intro h
      split_ifs at h with hp
      · rw [← hp.1, ← hp.2, ← Option.some_inj.mp h, Nat.pair_unpair, Nat.pair_unpair]
      · exact absurd (Option.some_inj.mp h).symm haddr
    · intro h
      rw [← Option.some_inj.mp h, Nat.unpair_pair, Nat.unpair_pair]
      simp
  apart {txKey addr addr' dv dv' i j key} _ _ hs hs' hkey hkey' := by
    dsimp only [sampleScheme] at hs hs' hkey hkey'
    rw [← hkey', Option.some_inj, Nat.pair_eq_pair, Nat.pair_eq_pair] at hkey
    obtain ⟨rfl,rfl,hspend⟩ := hkey
    have hv : addr.viewPublicKey + txKey = addr'.viewPublicKey + txKey := by
      rw [Option.some_inj.mp hs, Option.some_inj.mp hs']
    refine ⟨?_,rfl⟩
    cases addr
    cases addr'
    exact congrArg₂ AccountPublicAddress.mk hspend (Nat.add_right_cancel hv)
  secret h := Option.some_inj.mp h

def sampleAddress (view : ℕ) : AccountPublicAddress := ⟨5, view⟩

def sampleAccount : AccountKeys := ⟨sampleAddress 2, 5, 2⟩

theorem receivers_agree_sample :
    Lawful sampleScheme sampleAccounts ∧ Matching sampleScheme sampleAccount ∧
    ∃ tx, addOutputs sampleScheme [.multisignature 50 [sampleAddress 3] 1,
        .key 60 (sampleAddress 2)] (newTransaction sampleScheme 7) = .ok () tx ∧
      Agreement sampleScheme tx [.multisignature 50 [sampleAddress 3] 1,
        .key 60 (sampleAddress 2)] sampleAccount := by
  have hmatching : Matching sampleScheme sampleAccount := ⟨rfl,rfl⟩
  have hca : ∀ call ∈ [OutputCall.multisignature 50 [sampleAddress 3] 1,
      .key 60 (sampleAddress 2)], ∀ addr ∈ call.addresses, sampleAccounts addr := by
    simp [OutputCall.addresses, sampleAccounts, sampleAddress]
  obtain ⟨tx,hrun,hiff⟩ := receivers_agree_iff sampleScheme_lawful 7 _ hca sampleAccount
    (Nat.succ_ne_zero 4) hmatching
  refine ⟨sampleScheme_lawful,hmatching,tx,hrun,hiff.mpr ?_⟩
  intro idx amount hc
  match idx with
  | 0 => cases hc
  | 1 => rfl
  | idx + 2 => cases hc

/-- Two keys before the second output: it is tried with the index 2. -/
theorem key_output_missed :
    Lawful sampleScheme sampleAccounts ∧ Matching sampleScheme sampleAccount ∧ ∃ tx,
    addOutputs sampleScheme [.multisignature 50 [sampleAddress 3, sampleAddress 4] 1,
      .key 60 (sampleAddress 2)] (newTransaction sampleScheme 7) = .ok () tx ∧
    Addressed [.multisignature 50 [sampleAddress 3, sampleAddress 4] 1, .key 60 (sampleAddress 2)]
      sampleAccount.address 1 ∧ findMyOutputs sampleScheme tx 2 [5] = some [] ∧
    findOutputsToAccount sampleScheme tx sampleAccount.address 2 = some ([], 0) := by
  refine ⟨sampleScheme_lawful,⟨rfl,rfl⟩,_,rfl,⟨_,rfl,List.mem_singleton_self _⟩,?_,?_⟩
  · simp [findMyOutputs, findFrom, checkOutputKey, newTransaction, sampleScheme, sampleAddress]
  · simp [findOutputsToAccount, accountFrom, isOutToKey, newTransaction, sampleScheme,
      sampleAddress, sampleAccount]

end Orbis.WalletKeys
