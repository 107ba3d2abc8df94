import Orbis.StateList
import Orbis.WalletFaults
import Orbis.WalletKeys

/-!
# The consumer of the accounts with one view key

A consumer hands a transaction to the container of every subscription, with
the outputs that belong to its spend key. It remembers the ids of the pool
transactions that it knows, and the node is asked with them what has changed.
An id is remembered before its transaction is handed on, and a container that
refuses a transaction ends the call there.
-/

set_option autoImplicit false

namespace Orbis.WalletConsumer

open FaultState ChainTypes StateList WalletTransfers WalletMoves WalletContents
open WalletFaults WalletKeys

variable {dv : KeyDerivation} {kx idx : ℕ} {sks : List PublicKey}
variable {found found' : Found} {globalIdxs gi : List ℕ}

section Consumer

inductive ErrorCode where
  | argumentOutOfDomain
  | interrupted
  | node (code : ℕ)
  deriving DecidableEq

inductive Stop where
  | returned (code : ErrorCode)
  | thrown (refusal : Refusal)
  | undefined
  deriving DecidableEq

structure WalletTransaction extends TransactionReader where
  outputs : List TransactionOutput

def WalletTransaction.impl (tx : WalletTransaction) : TransactionImpl where
  transactionPublicKey := tx.transactionPublicKey
  secretKey := none
  outputs := tx.outputs
  signatures := []

structure Subscription where
  keys : AccountKeys
  container : TransfersContainer

def Subscription.spendKey (s : Subscription) : PublicKey := s.keys.address.spendPublicKey

structure TransfersConsumer where
  viewSecret : SecretKey
  subscriptions : List Subscription
  poolTxs : Finset Hash

structure PreprocessInfo where
  globalIdxs : List ℕ
  outputs : List (PublicKey × List TransactionOutputInformationIn)

def PreprocessInfo.of (info : PreprocessInfo) (spendKey : PublicKey) :
    List TransactionOutputInformationIn :=
  match info.outputs.find? fun entry => decide (entry.1 = spendKey) with
  | none => []
  | some entry => entry.2

def Stop.ofFault : TransferFault → Stop
  | .argumentOutOfDomain => .returned .argumentOutOfDomain
  | .undefined => .undefined

variable (scheme : KeyScheme) (getGlobalIndices : Hash → Except ErrorCode (List ℕ))

def handOver (c : TransfersConsumer) (height : ℕ) (tx : WalletTransaction) (found : Found)
    (globalIdxs : List ℕ) (spendKey : PublicKey) :
    Except Stop (PublicKey × List TransactionOutputInformationIn) :=
  match c.subscriptions.find? fun s => decide (s.spendKey = spendKey) with
  | none => .ok (spendKey, [])
  | some s =>
    match createTransfers scheme s.keys height tx.impl (found.of spendKey) globalIdxs with
    | .ok transfers => .ok (spendKey, transfers)
    | .error fault => .error (.ofFault fault)

def globalIndicesFor (block : TransactionBlockInfo) (tx : WalletTransaction) :
    Except Stop (List ℕ) :=
  if block.height ≠ unconfirmedHeight then
    (getGlobalIndices tx.transactionHash).mapError Stop.returned
  else .ok []

def preprocessOutputs (c : TransfersConsumer) (block : TransactionBlockInfo)
    (tx : WalletTransaction) : Except Stop PreprocessInfo :=
  match findMyOutputs scheme tx.impl c.viewSecret (c.subscriptions.map Subscription.spendKey) with
  | none => .error .undefined
  | some [] => .ok ⟨[], []⟩
  | some found => do
    let globalIdxs ← globalIndicesFor getGlobalIndices block tx
    let outputs ← (found.map Prod.fst).dedup.mapM
      (handOver scheme c block.height tx found globalIdxs)
    .ok ⟨globalIdxs, outputs⟩

def onContainer {α : Type} (x : Run α) : EStateM Stop Subscription α := fun s =>
  match x s.container with
  | .ok a c => .ok a { s with container := c }
  | .error refusal c => .error (.thrown refusal) { s with container := c }

def processOutputs (block : TransactionBlockInfo) (tx : WalletTransaction)
    (info : PreprocessInfo) : EStateM Stop Subscription Unit := do
  let s ← get
  match s.container.transaction tx.transactionHash with
  | some known =>
    -- from the pool to the blockchain
    if known.blockHeight = unconfirmedHeight ∧ block.height ≠ unconfirmedHeight then do
      let _ ← onContainer (markTransactionConfirmed block tx.transactionHash info.globalIdxs)
      pure ()
    else pure ()
  | none => do
    let _ ← onContainer (addTransaction block tx.toTransactionReader (info.of s.spendKey))
    pure ()

def TransfersConsumer.setSubscriptions (c : TransfersConsumer) (l : List Subscription) :
    TransfersConsumer :=
  { c with subscriptions := l }

def processTransaction (block : TransactionBlockInfo) (tx : WalletTransaction) :
    EStateM Stop TransfersConsumer Unit := do
  let info ← reading fun c => preprocessOutputs scheme getGlobalIndices c block tx
  within TransfersConsumer.subscriptions TransfersConsumer.setSubscriptions
    (each (processOutputs block tx info))

/-- The place within the block is not set for a pool transaction. -/
def unconfirmedBlock (transactionIndex : ℕ) : TransactionBlockInfo :=
  ⟨unconfirmedHeight, 0, transactionIndex⟩

def TransfersConsumer.know (c : TransfersConsumer) (id : Hash) : TransfersConsumer :=
  { c with poolTxs := insert id c.poolTxs }

def Subscription.deleteUnconfirmedTransaction (s : Subscription) (id : Hash) : Subscription :=
  { s with container := (s.container.deleteUnconfirmedTransaction id).2 }

def TransfersConsumer.removeUnconfirmedTransaction (c : TransfersConsumer) (id : Hash) :
    TransfersConsumer :=
  c.setSubscriptions (c.subscriptions.map (·.deleteUnconfirmedTransaction id))

def TransfersConsumer.forget (c : TransfersConsumer) (id : Hash) : TransfersConsumer :=
  { c.removeUnconfirmedTransaction id with poolTxs := c.poolTxs.erase id }

def addPoolTransaction (index : ℕ) (tx : WalletTransaction) :
    EStateM Stop TransfersConsumer Unit := do
  modify (·.know tx.transactionHash)
  processTransaction scheme getGlobalIndices (unconfirmedBlock index) tx

def addPoolTransactions (index : ℕ) :
    List WalletTransaction → EStateM Stop TransfersConsumer Unit
  | [] => pure ()
  | tx :: rest => do
    addPoolTransaction scheme getGlobalIndices index tx
    addPoolTransactions index rest

def onPoolUpdated (index : ℕ) (added : List WalletTransaction) (deleted : List Hash) :
    EStateM Stop TransfersConsumer Unit := do
  addPoolTransactions scheme getGlobalIndices index added
  modify fun c => deleted.foldl TransfersConsumer.forget c

def addUnconfirmedTransaction (tx : WalletTransaction) : EStateM Stop TransfersConsumer Unit :=
  processTransaction scheme getGlobalIndices (unconfirmedBlock 0) tx

end Consumer

variable {info : PreprocessInfo}

variable {oi bound height : ℕ} {acct : AccountKeys} {sk : PublicKey}
  {blk : TransactionBlockInfo}

section Handing

variable {scheme : KeyScheme} {getGlobalIndices : Hash → Except ErrorCode (List ℕ)}

theorem checkOutputKey_bound {key : PublicKey}
    (h : checkOutputKey scheme dv key kx oi sks found = some found') (hix : oi < bound)
    (hfd : ∀ e ∈ found, e.2 < bound) : ∀ e ∈ found', e.2 < bound := by
  unfold checkOutputKey at h
  obtain ⟨_,-,h⟩ := Option.bind_eq_some_iff.mp h
  split_ifs at h <;> cases h
  · intro e he
    rcases List.mem_append.mp he with hold | hnew
    · exact hfd e hold
    · rw [List.mem_singleton.mp hnew]
      exact hix
  · exact hfd

theorem checkOutputKeys_bound {keys : List PublicKey}
    (h : keys.foldlM (fun found key => checkOutputKey scheme dv key kx oi
      sks found) found = some found') (hix : oi < bound)
    (hfd : ∀ e ∈ found, e.2 < bound) : ∀ e ∈ found', e.2 < bound := by
  induction keys generalizing found with
  | nil =>
    cases h
    exact hfd
  | cons _ _ ih =>
    rw [List.foldlM_cons] at h
    obtain ⟨_,hfst,hr⟩ := Option.bind_eq_some_iff.mp h
    exact ih hr (checkOutputKey_bound hfst hix hfd)

theorem findFrom_bound {outs : List TransactionOutput}
    (h : findFrom scheme dv sks kx idx outs found = some found')
    (hfd : ∀ e ∈ found, e.2 < idx + outs.length) : ∀ e ∈ found', e.2 < idx + outs.length := by
  induction outs generalizing kx idx found with
  | nil =>
    cases h
    exact hfd
  | cons out outs ih =>
    have hlen : idx + (out :: outs).length = idx + 1 + outs.length := by
      rw [List.length_cons]
      omega
    have hix : idx < idx + (out :: outs).length := by
      rw [List.length_cons]
      omega
    rw [findFrom] at h
    cases htgt : out.target with
    | key _ =>
      rw [htgt] at h
      obtain ⟨mid,hfst,hr⟩ := Option.bind_eq_some_iff.mp h
      have hmid := checkOutputKey_bound hfst hix hfd
      rw [hlen] at hmid ⊢
      exact ih hr hmid
    | multisignature _ _ =>
      rw [htgt] at h
      obtain ⟨mid,hfst,hr⟩ := Option.bind_eq_some_iff.mp h
      have hmid := checkOutputKeys_bound hfst hix hfd
      rw [hlen] at hmid ⊢
      exact ih hr hmid

theorem findMyOutputs_bound {tx : TransactionImpl} {vsk : SecretKey}
    (h : findMyOutputs scheme tx vsk sks = some found) (spendKey : PublicKey) :
    ∀ idx ∈ found.of spendKey, idx < tx.outputs.length := by
  have hall : ∀ e ∈ found, e.2 < tx.outputs.length := by
    unfold findMyOutputs at h
    cases hder : scheme.generateKeyDerivation tx.transactionPublicKey vsk with
    | none =>
      rw [hder] at h
      cases h
      simp
    | some _ =>
      rw [hder] at h
      have hbd := findFrom_bound h (by simp)
      rwa [Nat.zero_add] at hbd
  intro idx hidx
  obtain ⟨e,he,rfl⟩ := List.mem_map.mp hidx
  exact hall e (List.mem_of_mem_filter he)

theorem createTransfer_unconfirmed {tx : TransactionImpl} {t : TransactionOutputInformationIn}
    (h : createTransfer scheme acct unconfirmedHeight tx gi idx = .ok t) :
    t.globalOutputIndex = unconfirmedIndex := by
  unfold createTransfer at h
  cases ho : tx.outputs[idx]? with
  | none =>
    rw [ho] at h
    cases h
  | some _ =>
    rw [ho] at h
    obtain ⟨globalOutputIndex,hglb,h⟩ := except_bind_ok.mp h
    obtain ⟨_,-,h⟩ := except_bind_ok.mp h
    cases h
    rw [outputGlobalIndex, if_pos rfl] at hglb
    cases hglb
    rfl

theorem createTransfer_fault {tx : TransactionImpl} {fault : TransferFault}
    (h : createTransfer scheme acct height tx gi idx = .error fault)
    (hidx : idx < tx.outputs.length) : fault = .undefined := by
  unfold createTransfer at h
  rw [List.getElem?_eq_getElem hidx] at h
  rcases except_bind_error.mp h with hglb | ⟨globalOutputIndex,-,h⟩
  · unfold outputGlobalIndex at hglb
    split_ifs at hglb
    cases hix : gi[idx]? with
    | none =>
      rw [hix] at hglb
      cases hglb
      rfl
    | some _ =>
      rw [hix] at hglb
      cases hglb
  · rcases except_bind_error.mp h with hk | ⟨kind,-,h⟩
    · cases htgt : tx.outputs[idx].target with
      | key _ =>
        rw [htgt, outputKind] at hk
        split at hk <;> cases hk
        rfl
      | multisignature _ _ =>
        rw [htgt] at hk
        cases hk
    · cases h

variable {c : TransfersConsumer} {tx : WalletTransaction} {e : Stop} {index : ℕ}

theorem handOver_unconfirmed {en : PublicKey × List TransactionOutputInformationIn}
    (h : handOver scheme c unconfirmedHeight tx found [] sk = .ok en) :
    ∀ t ∈ en.2, t.globalOutputIndex = unconfirmedIndex := by
  unfold handOver at h
  split at h
  · cases h
    simp
  · split at h
    · rename_i transfers hcrt
      cases h
      intro t ht
      obtain ⟨_,-,hidx⟩ := mem_of_mapM_ok hcrt t ht
      exact createTransfer_unconfirmed hidx
    · cases h

theorem handOver_stop (h : handOver scheme c height tx found gi sk = .error e)
    (hbd : ∀ idx ∈ found.of sk, idx < tx.outputs.length) : e = .undefined := by
  unfold handOver at h
  split at h
  · cases h
  · split at h
    · cases h
    · rename_i fault hcrt
      cases h
      obtain ⟨idx,hidx,hflt⟩ := exists_of_mapM_error hcrt
      rw [createTransfer_fault hflt (hbd idx hidx)]
      rfl

theorem globalIndicesFor_unconfirmed :
    globalIndicesFor getGlobalIndices (unconfirmedBlock index) tx = .ok [] :=
  if_neg fun h => h rfl

theorem preprocessOutputs_stop
    (h : preprocessOutputs scheme getGlobalIndices c (unconfirmedBlock index) tx = .error e) :
    e = .undefined := by
  unfold preprocessOutputs at h
  split at h
  · cases h
    rfl
  · cases h
  · rename_i found _ hfd
    rcases except_bind_error.mp h with h | ⟨gi,-,h⟩
    · rw [globalIndicesFor_unconfirmed] at h
      cases h
    · rcases except_bind_error.mp h with h | ⟨outs,-,h⟩
      · obtain ⟨sk,-,hs⟩ := exists_of_mapM_error h
        exact handOver_stop hs (findMyOutputs_bound hfd sk)
      · cases h

theorem preprocessOutputs_unconfirmed
    (h : preprocessOutputs scheme getGlobalIndices c (unconfirmedBlock index) tx = .ok info)
    (spendKey : PublicKey) : ∀ t ∈ info.of spendKey, t.globalOutputIndex = unconfirmedIndex := by
  unfold preprocessOutputs at h
  split at h
  · cases h
  · cases h
    simp [PreprocessInfo.of]
  · obtain ⟨_,hglb,h⟩ := except_bind_ok.mp h
    obtain ⟨_,ho,h⟩ := except_bind_ok.mp h
    cases h
    rw [globalIndicesFor_unconfirmed] at hglb
    cases hglb
    unfold PreprocessInfo.of
    split
    · simp
    · rename_i en hent
      obtain ⟨_,-,hh⟩ := mem_of_mapM_ok ho en (List.mem_of_find?_eq_some hent)
      exact handOver_unconfirmed hh

end Handing

section Acceptance

variable {index : ℕ} {tx : WalletTransaction} {transfers : List TransactionOutputInformationIn}
  {c : TransfersContainer} {s s' : Subscription}

/-- The transaction is in no block, so its outputs are stored in any case. The
container refuses it for its inputs only: one with the image of a spent or
unconfirmed output, with a wrong amount, or with the image of another input. -/
inductive Accepts (index : ℕ) (tx : WalletTransaction)
    (transfers : List TransactionOutputInformationIn) (c : TransfersContainer) : Prop
  | known (h : (c.transaction tx.transactionHash).isSome = true)
  | clear (height : c.currentHeight ≤ unconfirmedHeight)
      (clear : Clear (received (unconfirmedBlock index) tx.toTransactionReader transfers
        (contents c.toTransfers)) tx.inputs)

def Unindexed (transfers : List TransactionOutputInformationIn) : Prop :=
  ∀ t ∈ transfers, t.globalOutputIndex = unconfirmedIndex

theorem Unindexed.allFit (h : Unindexed transfers) (g : Transfers) :
    AllFit g (unconfirmedBlock index) transfers := by
  constructor
  · intro t ht
    simp [h t ht, unconfirmedBlock]
  · intro hne
    exact absurd rfl hne

def withOutputs (index : ℕ) (tx : WalletTransaction)
    (transfers : List TransactionOutputInformationIn) (c : TransfersContainer) :
    TransfersContainer :=
  let received := receive (unconfirmedBlock index) tx.toTransactionReader transfers c.toTransfers
  { c with toTransfers := received }

theorem addTransaction_ok_iff (ix : ℕ) (htfs : Unindexed transfers)
    (hunk : ¬ (c.transaction tx.transactionHash).isSome = true) :
    (∃ added c', addTransaction (unconfirmedBlock ix) tx.toTransactionReader transfers c =
      .ok added c') ↔ Accepts ix tx transfers c := by
  by_cases hold : (unconfirmedBlock ix).height < c.currentHeight
  · have hrun : addTransaction (unconfirmedBlock ix) tx.toTransactionReader transfers c =
        .error .oldBlock c := by
      unfold addTransaction
      rw [get_bind, if_pos hold]
      rfl
    rw [hrun]
    constructor
    · rintro ⟨added,c',h⟩
      cases h
    · intro h
      cases h with
      | known h => exact absurd h hunk
      | clear height _ => exact absurd hold (Nat.not_lt.mpr height)
  · have hfit : AllFit c.toTransfers (unconfirmedBlock ix) transfers := htfs.allFit c.toTransfers
    let inputsLoop := addTransactionInputs (unconfirmedBlock ix) tx.toTransactionReader 0
      tx.inputs (withOutputs ix tx transfers c)
    have hl : ∀ e c', addTransaction (unconfirmedBlock ix) tx.toTransactionReader transfers
        c = .error e c' ↔ inputsLoop = .error e c' := by
      intro e c'
      rw [addTransaction_loops hold hunk, addTransactionOutputs_ok hfit]
      simp [hfit, inputsLoop, withOutputs]
    have hclr : (∃ spent d, inputsLoop = .ok spent d) ↔
        Clear (received (unconfirmedBlock ix) tx.toTransactionReader transfers
          (contents c.toTransfers)) tx.inputs := by
      rw [← receive_contents]
      exact addTransactionInputs_clear _ _ _ _ (withOutputs ix tx transfers c)
    constructor
    · rintro ⟨added,c',hrun⟩
      refine .clear (Nat.not_lt.mp hold) (hclr.mp ?_)
      cases hins : inputsLoop with
      | ok spent d => exact ⟨spent,d,rfl⟩
      | error e d =>
        rw [(hl e d).mpr hins] at hrun
        cases hrun
    · intro h
      cases h with
      | known h => exact absurd h hunk
      | clear _ clear =>
        obtain ⟨spent,d,hins⟩ := hclr.mpr clear
        cases hrun : addTransaction (unconfirmedBlock ix) tx.toTransactionReader transfers c with
        | ok added c' => exact ⟨added,c',rfl⟩
        | error e c' =>
          rw [(hl e c').mp hrun] at hins
          cases hins

theorem processOutputs_known (h : (s.container.transaction tx.transactionHash).isSome = true) :
    processOutputs (unconfirmedBlock index) tx info s = .ok () s := by
  obtain ⟨_,hkn⟩ := Option.isSome_iff_exists.mp h
  unfold processOutputs
  rw [get_bind, hkn]
  exact congrFun (if_neg fun h => h.2 rfl) s

theorem processOutputs_new (h : ¬ (s.container.transaction tx.transactionHash).isSome = true) :
    processOutputs (unconfirmedBlock index) tx info s =
      match addTransaction (unconfirmedBlock index) tx.toTransactionReader (info.of s.spendKey)
          s.container with
      | .ok _ c => .ok () { s with container := c }
      | .error ref c => .error (.thrown ref) { s with container := c } := by
  rw [Option.not_isSome_iff_eq_none] at h
  unfold processOutputs
  rw [get_bind, h]
  dsimp only
  rw [bind_run, onContainer]
  cases addTransaction (unconfirmedBlock index) tx.toTransactionReader (info.of s.spendKey)
    s.container <;> rfl

theorem processOutputs_cases (h : Unindexed (info.of s.spendKey)) :
    (Accepts index tx (info.of s.spendKey) s.container ∧
      ∃ s', processOutputs (unconfirmedBlock index) tx info s = .ok () s') ∨
    (¬ Accepts index tx (info.of s.spendKey) s.container ∧ ∃ ref c',
      addTransaction (unconfirmedBlock index) tx.toTransactionReader (info.of s.spendKey)
        s.container = .error ref c' ∧ processOutputs (unconfirmedBlock index) tx info s =
        .error (.thrown ref) { s with container := c' }) := by
  by_cases hkn : (s.container.transaction tx.transactionHash).isSome = true
  · exact .inl ⟨.known hkn,s,processOutputs_known hkn⟩
  · have hiff := addTransaction_ok_iff index h hkn
    rw [processOutputs_new hkn, ← hiff]
    cases hrun : addTransaction (unconfirmedBlock index) tx.toTransactionReader
        (info.of s.spendKey) s.container with
    | ok added c' => exact .inl ⟨⟨added,c',rfl⟩,_,rfl⟩
    | error ref c' =>
      refine .inr ⟨?_,ref,c',rfl,rfl⟩
      rintro ⟨added,_,hok⟩
      cases hok

end Acceptance

section Processing

variable (scheme : KeyScheme) (getGlobalIndices : Hash → Except ErrorCode (List ℕ))

def AcceptedBy (index : ℕ) (tx : WalletTransaction) (c : TransfersConsumer) : Prop :=
  ∃ info, preprocessOutputs scheme getGlobalIndices c (unconfirmedBlock index) tx = .ok info ∧
    ∀ s ∈ c.subscriptions, Accepts index tx (info.of s.spendKey) s.container

def RefusedBy (index : ℕ) (tx : WalletTransaction) (c : TransfersConsumer) : Prop :=
  ∃ info, preprocessOutputs scheme getGlobalIndices c (unconfirmedBlock index) tx = .ok info ∧
    ∃ s ∈ c.subscriptions, ¬ Accepts index tx (info.of s.spendKey) s.container

variable {scheme getGlobalIndices} {index : ℕ} {tx : WalletTransaction} {c c' : TransfersConsumer}
  {e : Stop}

theorem processTransaction_preprocessed
    (h : preprocessOutputs scheme getGlobalIndices c blk tx = .ok info) :
    processTransaction scheme getGlobalIndices blk tx c =
      within TransfersConsumer.subscriptions TransfersConsumer.setSubscriptions
        (each (processOutputs blk tx info)) c := by
  have hr : reading (fun c => preprocessOutputs scheme getGlobalIndices c blk tx) c =
      .ok info c := (reading_ok _ _ _ _).mpr ⟨h,rfl⟩
  exact bind_of_ok hr

theorem processTransaction_not_preprocessed
    (h : preprocessOutputs scheme getGlobalIndices c blk tx = .error e) :
    processTransaction scheme getGlobalIndices blk tx c = .error e c := by
  have hr : reading (fun c => preprocessOutputs scheme getGlobalIndices c blk tx) c =
      .error e c := (reading_error _ _ _ _).mpr ⟨h,rfl⟩
  exact bind_of_error hr

theorem processTransaction_cases (sc : KeyScheme)
    (getGlobalIndices : Hash → Except ErrorCode (List ℕ)) (ix : ℕ) (tx : WalletTransaction)
    (c : TransfersConsumer) : (AcceptedBy sc getGlobalIndices ix tx c ∧ ∃ c',
      processTransaction sc getGlobalIndices (unconfirmedBlock ix) tx c = .ok () c') ∨
    (RefusedBy sc getGlobalIndices ix tx c ∧ ∃ ref c',
      processTransaction sc getGlobalIndices (unconfirmedBlock ix) tx c =
        .error (.thrown ref) c') ∨ (¬ AcceptedBy sc getGlobalIndices ix tx c ∧
      ¬ RefusedBy sc getGlobalIndices ix tx c ∧
      processTransaction sc getGlobalIndices (unconfirmedBlock ix) tx c = .error .undefined c) := by
  cases hi : preprocessOutputs sc getGlobalIndices c (unconfirmedBlock ix) tx with
  | error _ =>
    obtain rfl := preprocessOutputs_stop hi
    refine .inr (.inr ⟨?_,?_,processTransaction_not_preprocessed hi⟩)
    · rintro ⟨info,hok,-⟩
      rw [hi] at hok
      cases hok
    · rintro ⟨info,hok,-⟩
      rw [hi] at hok
      cases hok
  | ok info =>
    have hu : ∀ s : Subscription, Unindexed (info.of s.spendKey) :=
      fun s => preprocessOutputs_unconfirmed hi s.spendKey
    rw [processTransaction_preprocessed hi]
    cases hrun : each (processOutputs (unconfirmedBlock ix) tx info) c.subscriptions with
    | ok _ l =>
      refine .inl ⟨⟨info,hi,?_⟩,c.setSubscriptions l,(within_ok _ _ _ _ _ _).mpr ⟨l,hrun,rfl⟩⟩
      intro s hs
      obtain ⟨s',-,hd⟩ := forall₂_mem_left (each_ok.mp hrun) hs
      rcases processOutputs_cases (hu s) with ⟨ha,-⟩ | ⟨-,ref,d,-,her⟩
      · exact ha
      · rw [Done, her] at hd
        cases hd
    | error _ l =>
      obtain ⟨_,s,s',_,_,hsu,-,hs,-⟩ := each_error.mp hrun
      rcases processOutputs_cases (hu s) with ⟨-,_,hok⟩ | ⟨hr,ref,d,-,her⟩
      · rw [hok] at hs
        cases hs
      · rw [her] at hs
        cases hs
        refine .inr (.inl ⟨⟨info,hi,s,?_,hr⟩,ref,c.setSubscriptions l,?_⟩)
        · rw [hsu]
          simp
        · exact (within_error _ _ _ _ _ _).mpr ⟨l,hrun,rfl⟩

theorem AcceptedBy.not_refused (h : AcceptedBy scheme getGlobalIndices index tx c) :
    ¬ RefusedBy scheme getGlobalIndices index tx c := by
  obtain ⟨_,hi,hall⟩ := h
  rintro ⟨_,hi',s,hs,hr⟩
  rw [hi] at hi'
  cases hi'
  exact hr (hall s hs)

theorem processTransaction_ok_iff : (∃ c', processTransaction scheme getGlobalIndices
    (unconfirmedBlock index) tx c = .ok () c') ↔ AcceptedBy scheme getGlobalIndices index tx c := by
  rcases processTransaction_cases scheme getGlobalIndices index tx c with
    ⟨hacc,hok⟩ | ⟨href,ref,d,ht⟩ | ⟨hnot,-,hund⟩
  · exact ⟨fun _ => hacc,fun _ => hok⟩
  · rw [ht]
    constructor
    · rintro ⟨c',h⟩
      cases h
    · intro h
      exact absurd href h.not_refused
  · rw [hund]
    constructor
    · rintro ⟨c',h⟩
      cases h
    · intro h
      exact absurd h hnot

theorem processTransaction_thrown_iff : (∃ ref c', processTransaction scheme getGlobalIndices
    (unconfirmedBlock index) tx c = .error (.thrown ref) c') ↔
      RefusedBy scheme getGlobalIndices index tx c := by
  rcases processTransaction_cases scheme getGlobalIndices index tx c with
    ⟨hacc,d,hok⟩ | ⟨href,ht⟩ | ⟨-,hnot,hund⟩
  · rw [hok]
    constructor
    · rintro ⟨ref,c',h⟩
      cases h
    · intro h
      exact absurd h hacc.not_refused
  · exact ⟨fun _ => href,fun _ => ht⟩
  · rw [hund]
    constructor
    · rintro ⟨ref,c',h⟩
      cases h
    · intro h
      exact absurd h hnot

theorem processTransaction_poolTxs (sc : KeyScheme)
    (getGlobalIndices : Hash → Except ErrorCode (List ℕ)) (bl : TransactionBlockInfo)
    (tx : WalletTransaction) (c : TransfersConsumer) :
    (left (processTransaction sc getGlobalIndices bl tx c)).poolTxs = c.poolTxs := by
  cases hi : preprocessOutputs sc getGlobalIndices c bl tx with
  | error _ =>
    rw [processTransaction_not_preprocessed hi]
    rfl
  | ok info =>
    rw [processTransaction_preprocessed hi, within]
    cases each (processOutputs bl tx info) c.subscriptions <;> rfl

end Processing

section PoolUpdate

variable (scheme : KeyScheme) (getGlobalIndices : Hash → Except ErrorCode (List ℕ)) (index : ℕ)

def unfinished : List WalletTransaction → TransfersConsumer → List WalletTransaction
  | [], _ => []
  | tx :: rest, c =>
    match addPoolTransaction scheme getGlobalIndices index tx c with
    | .ok _ c' => unfinished rest c'
    | .error _ _ => tx :: rest

def AcceptedInTurn : List WalletTransaction → TransfersConsumer → Prop
  | [], _ => True
  | tx :: rest, c =>
    ¬ RefusedBy scheme getGlobalIndices index tx c ∧
      ∀ c', addPoolTransaction scheme getGlobalIndices index tx c = .ok () c' →
        AcceptedInTurn rest c'

variable {scheme getGlobalIndices index} {added : List WalletTransaction} {tx : WalletTransaction}
  {c c' : TransfersConsumer} {e : Stop}

theorem addPoolTransaction_eq :
    addPoolTransaction scheme getGlobalIndices index tx c =
      processTransaction scheme getGlobalIndices (unconfirmedBlock index) tx
        (c.know tx.transactionHash) := rfl

theorem addPoolTransaction_cases (sc : KeyScheme)
    (getGlobalIndices : Hash → Except ErrorCode (List ℕ)) (ix : ℕ) (tx : WalletTransaction)
    (c : TransfersConsumer) : (¬ RefusedBy sc getGlobalIndices ix tx c ∧ ∃ c',
      addPoolTransaction sc getGlobalIndices ix tx c = .ok () c') ∨
    (RefusedBy sc getGlobalIndices ix tx c ∧ ∃ ref c',
      addPoolTransaction sc getGlobalIndices ix tx c = .error (.thrown ref) c') ∨
    (¬ RefusedBy sc getGlobalIndices ix tx c ∧ ∃ c',
      addPoolTransaction sc getGlobalIndices ix tx c = .error .undefined c') := by
  rcases processTransaction_cases sc getGlobalIndices ix tx (c.know tx.transactionHash) with
    ⟨hacc,hok⟩ | href | ⟨-,hnot,hund⟩
  · exact .inl ⟨hacc.not_refused,hok⟩
  · exact .inr (.inl href)
  · exact .inr (.inr ⟨hnot,_,hund⟩)

theorem addPoolTransaction_knows
    (h : addPoolTransaction scheme getGlobalIndices index tx c = .error e c') :
    tx.transactionHash ∈ c'.poolTxs := by
  have hp := processTransaction_poolTxs scheme getGlobalIndices (unconfirmedBlock index) tx
    (c.know tx.transactionHash)
  rw [addPoolTransaction_eq] at h
  rw [h, left_error] at hp
  rw [hp]
  exact Finset.mem_insert_self _ _

theorem addPoolTransactions_knows
    (h : addPoolTransactions scheme getGlobalIndices index added c = .error e c') :
    ∃ tx ∈ unfinished scheme getGlobalIndices index added c, tx.transactionHash ∈ c'.poolTxs := by
  induction added generalizing c with
  | nil => cases h
  | cons tx _ ih =>
    rw [unfinished]
    rcases bind_error.mp h with hfst | ⟨u,d,hfst,hr⟩
    · rw [hfst]
      exact ⟨tx,List.mem_cons_self,addPoolTransaction_knows hfst⟩
    · rw [hfst]
      exact ih hr

theorem addPoolTransactions_stops_iff :
    (∃ e c', addPoolTransactions scheme getGlobalIndices index added c = .error e c' ∧
      e ≠ .undefined) ↔ ¬ AcceptedInTurn scheme getGlobalIndices index added c := by
  induction added generalizing c with
  | nil =>
    simp only [AcceptedInTurn, not_true_eq_false, iff_false]
    rintro ⟨e,c',h,-⟩
    cases h
  | cons tx _ ih =>
    rw [AcceptedInTurn, addPoolTransactions]
    rcases addPoolTransaction_cases scheme getGlobalIndices index tx c with
      ⟨hnot,d,hok⟩ | ⟨href,ref,d,ht⟩ | ⟨hnot,d,hund⟩
    · rw [bind_of_ok hok, hok, ih]
      constructor
      · rintro hr ⟨-,hall⟩
        exact hr (hall d rfl)
      · intro h hr
        apply h
        refine ⟨hnot,?_⟩
        intro c' hc'
        cases hc'
        exact hr
    · rw [bind_of_error ht]
      constructor
      · rintro - ⟨hnot,-⟩
        exact hnot href
      · intro _
        exact ⟨_,d,rfl,by simp⟩
    · rw [bind_of_error hund, hund]
      constructor
      · rintro ⟨e,c',h,hdef⟩
        cases h
        exact absurd rfl hdef
      · intro h
        refine absurd ⟨hnot,?_⟩ h
        intro c' hc'
        cases hc'

/-- A pool update that fails leaves no unfinished transaction among the known
ones exactly if no container refuses a transaction when its turn comes: the
id is known before the transaction is processed. -/
theorem poolUpdate_forgets_iff (scheme : KeyScheme)
    (getGlobalIndices : Hash → Except ErrorCode (List ℕ)) (index : ℕ)
    (added : List WalletTransaction) (deleted : List Hash) (c : TransfersConsumer) :
    (∀ e c', onPoolUpdated scheme getGlobalIndices index added deleted c = .error e c' →
      e ≠ .undefined → ∀ tx ∈ unfinished scheme getGlobalIndices index added c,
        tx.transactionHash ∉ c'.poolTxs) ↔
      AcceptedInTurn scheme getGlobalIndices index added c := by
  have hu : ∀ e c', onPoolUpdated scheme getGlobalIndices index added deleted c =
      .error e c' ↔ addPoolTransactions scheme getGlobalIndices index added c = .error e c' := by
    intro e c'
    unfold onPoolUpdated
    rw [bind_error]
    simp
  constructor
  · intro h
    by_contra hnot
    obtain ⟨e,c',hrun,hdef⟩ := addPoolTransactions_stops_iff.mpr hnot
    obtain ⟨tx,htx,hkn⟩ := addPoolTransactions_knows hrun
    exact h e c' ((hu e c').mpr hrun) hdef tx htx hkn
  · intro h e c' hrun hdef
    have hnot := addPoolTransactions_stops_iff.mp ⟨e,c',(hu e c').mp hrun,hdef⟩
    exact absurd h hnot

end PoolUpdate

def noIndices (_ : Hash) : Except ErrorCode (List ℕ) := .ok []

def sampleSpend (hash : Hash) : WalletTransaction :=
  ⟨sampleReader hash [.key 50 [] 3], []⟩

def sampleSubscription : Subscription :=
  ⟨sampleAccount, left (addTransaction ⟨1, 0, 0⟩ (sampleReader 1 []) [sampleTransfer 50 7 0 3]
    .empty)⟩

def sampleConsumer : TransfersConsumer :=
  left (addUnconfirmedTransaction sampleScheme noIndices (sampleSpend 8)
    ⟨2, [sampleSubscription], ∅⟩)

/-- The pool has another transaction that spends the output. It is refused,
and the node will not be asked for it again. -/
theorem refused_transaction_known :
    ∃ e c', onPoolUpdated sampleScheme noIndices 0 [sampleSpend 9] [] sampleConsumer =
        .error e c' ∧ e = .thrown .alreadySpent ∧
      ∃ tx ∈ unfinished sampleScheme noIndices 0 [sampleSpend 9] sampleConsumer,
        tx.transactionHash ∈ c'.poolTxs := by
  have hrun : fault (onPoolUpdated sampleScheme noIndices 0 [sampleSpend 9] [] sampleConsumer) =
      some (.thrown .alreadySpent) := by decide
  refine ⟨_,_,eq_error_of_fault hrun,rfl,sampleSpend 9,?_,by decide⟩
  exact List.mem_singleton.mpr rfl

end Orbis.WalletConsumer
