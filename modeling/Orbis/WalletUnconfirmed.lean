import Orbis.WalletConsumer

/-!
# Adding an unconfirmed transaction to all consumers

The synchronizer hands a transaction that the wallet has just made to its
consumers, one after another. When one returns an error code, the consumers
before it remove the transaction again. A container refuses a transaction by
an exception, and nothing is removed then: the consumers and subscriptions
before it keep what they took, and the container itself what it did so far.
-/

set_option autoImplicit false

namespace Orbis.WalletUnconfirmed

open FaultState ChainTypes StateList WalletTransfers WalletMoves WalletContents WalletFlags
open WalletLedger WalletConfirm WalletFaults WalletKeys WalletConsumer

section Call

variable (scheme : KeyScheme) (getGlobalIndices : Hash → Except ErrorCode (List ℕ))

def doAddUnconfirmedTransaction (tx : WalletTransaction) :
    EStateM Stop (List TransfersConsumer) (Option ErrorCode) := fun consumers =>
  let progress := advance (addUnconfirmedTransaction scheme getGlobalIndices tx) consumers
  match progress.stop with
  | none => .ok none progress.done
  | some (.returned code, rest) =>
    let rolledBack := progress.done.map (·.removeUnconfirmedTransaction tx.transactionHash)
    .ok (some code) (rolledBack ++ rest)
  | some (stop, rest) => .error stop (progress.done ++ rest)

def FailsWith (tx : WalletTransaction) (consumers consumers' : List TransfersConsumer) : Prop :=
  (∃ code, doAddUnconfirmedTransaction scheme getGlobalIndices tx consumers =
    .ok (some code) consumers') ∨
  ∃ refusal, doAddUnconfirmedTransaction scheme getGlobalIndices tx consumers =
    .error (.thrown refusal) consumers'

structure SameSubscription (s s' : Subscription) : Prop where
  keys : s.keys = s'.keys
  height : s.container.currentHeight = s'.container.currentHeight
  container : Same s.container s'.container

structure SameConsumer (c c' : TransfersConsumer) : Prop where
  viewSecret : c.viewSecret = c'.viewSecret
  poolTxs : c.poolTxs = c'.poolTxs
  subscriptions : List.Forall₂ SameSubscription c.subscriptions c'.subscriptions

end Call

variable {tx : WalletTransaction}

section Containers

variable {index i : ℕ} {blk : TransactionBlockInfo}
  {transfers : List TransactionOutputInformationIn} {inputs : List TransactionInput}
  {c c' : TransfersContainer} {added : Bool} {g g' : Transfers} {hash : Hash}

theorem foreign_of_contents {s : Transfers} {inp : TransactionInput}
    (h : Foreign (contents s) inp) : Foreign s inp := by
  cases inp with
  | base _ => trivial
  | multisignature _ _ _ =>
    exact fun t ht => h (core t) (List.mem_map_of_mem ht)
  | key _ _ _ =>
    obtain ⟨hsp,hav,hunc⟩ := h
    exact ⟨fun p hp => hsp (spentCore p) (List.mem_map_of_mem hp),
      fun t ht => hav (core t) (List.mem_map_of_mem ht),
      fun t ht => hunc (core t) (List.mem_map_of_mem ht)⟩

theorem spending_foreign (h : Spending blk hash i inputs g false g') :
    ∀ y ∈ inputs, Foreign g y := by
  generalize hsp : false = spent at h
  induction h with
  | done _ _ => simp
  | foreign hfgn _ ih => exact List.forall_mem_cons.mpr ⟨hfgn,ih hsp⟩
  | spend _ _ _ _ => cases hsp

theorem addTransactionInputs_foreign (i : ℕ) (h : ∀ y ∈ inputs, Foreign c.toTransfers y) :
    addTransactionInputs blk tx.toTransactionReader i inputs c = .ok false c := by
  induction inputs generalizing i with
  | nil => rfl
  | cons y _ ih =>
    obtain ⟨hfst,hlat⟩ := List.forall_mem_cons.mp h
    rcases addTransactionInput_cases blk tx.toTransactionReader i y c with
      ⟨hy,-⟩ | ⟨-,he⟩ | ⟨cur,hl,hch,-⟩
    · exact absurd hy (foreign_not_refused hfst)
    · rw [addTransactionInputs, bind_of_ok he, bind_of_ok (ih (i + 1) hlat)]
      rfl
    · exact absurd hfst (chosen_not_foreign hch hl)

inductive Untouched (tx : WalletTransaction) (transfers : List TransactionOutputInformationIn)
    (c : TransfersContainer) : Prop
  | known (h : (c.transaction tx.transactionHash).isSome = true)
  | nothing (outputs : transfers = []) (inputs : ∀ y ∈ tx.inputs, Foreign c.toTransfers y)

theorem addTransaction_nothing (hht : ¬ (unconfirmedBlock index).height < c.currentHeight)
    (hunk : ¬ (c.transaction tx.transactionHash).isSome = true)
    (hins : ∀ y ∈ tx.inputs, Foreign c.toTransfers y) :
    addTransaction (unconfirmedBlock index) tx.toTransactionReader [] c = .ok false c := by
  unfold addTransaction
  rw [get_bind, if_neg hht, get_bind, if_neg hunk,
    addTransactionOutputs, bind_of_ok (pure_run false c),
    bind_of_ok (addTransactionInputs_foreign 0 hins)]
  rfl

theorem addTransaction_same_iff (hrun : addTransaction (unconfirmedBlock index)
    tx.toTransactionReader transfers c = .ok added c') :
    (c.currentHeight = c'.currentHeight ∧ Same c c') ↔ Untouched tx transfers c := by
  obtain ⟨_,s,had,-,rfl⟩ := addTransaction_ok hrun
  have hunk : ¬ (c.transaction tx.transactionHash).isSome = true := by
    rw [had.unknown]
    simp
  constructor
  · rintro ⟨-,hs⟩
    have halk : Alike (contents c.toTransfers) (contents s) := alike_contents hs.transfers
    obtain ⟨rfl,rfl⟩ := alike_nothing (allFit_contents had.fit) had.spending halk
    have hspg := had.spending
    rw [received_nil] at hspg
    exact .nothing rfl fun y hy => foreign_of_contents (spending_foreign hspg y hy)
  · intro h
    cases h with
    | known h => exact absurd h hunk
    | nothing ho hins =>
      subst ho
      rw [addTransaction_nothing (Nat.not_lt.mpr had.height) hunk hins] at hrun
      rw [EStateM.Result.ok.injEq] at hrun
      rw [← hrun.2]
      exact ⟨rfl,.refl c⟩

end Containers

section Consumers

variable {scheme : KeyScheme} {getGlobalIndices : Hash → Except ErrorCode (List ℕ)} {index : ℕ}
  {info : PreprocessInfo} {s s' : Subscription} {c c' : TransfersConsumer} {e : Stop}

theorem SameSubscription.refl (s : Subscription) : SameSubscription s s := ⟨rfl,rfl,.refl _⟩

theorem SameConsumer.refl (c : TransfersConsumer) : SameConsumer c c :=
  ⟨rfl,rfl,List.forall₂_same.mpr fun s _ => .refl s⟩

theorem processOutputs_same_iff
    (h : processOutputs (unconfirmedBlock index) tx info s = .ok () s') :
    SameSubscription s s' ↔ Untouched tx (info.of s.spendKey) s.container := by
  by_cases hkn : (s.container.transaction tx.transactionHash).isSome = true
  · rw [processOutputs_known hkn] at h
    cases h
    exact ⟨fun _ => .known hkn,fun _ => .refl s⟩
  · rw [processOutputs_new hkn] at h
    cases hrun : addTransaction (unconfirmedBlock index) tx.toTransactionReader
        (info.of s.spendKey) s.container with
    | ok _ _ =>
      rw [hrun] at h
      cases h
      rw [← addTransaction_same_iff hrun]
      exact ⟨fun h => ⟨h.height,h.container⟩,fun h => ⟨rfl,h.1,h.2⟩⟩
    | error _ _ =>
      rw [hrun] at h
      cases h

theorem subscriptions_same_iff {l l' : List Subscription}
    (h : List.Forall₂ (Done (processOutputs (unconfirmedBlock index) tx info)) l l') :
    List.Forall₂ SameSubscription l l' ↔
      ∀ s ∈ l, Untouched tx (info.of s.spendKey) s.container := by
  apply forall₂_done_iff _ h
  intro s s' _ hd
  exact processOutputs_same_iff hd

theorem processOutputs_refused_iff (hu : Unindexed (info.of s.spendKey))
    (h : processOutputs (unconfirmedBlock index) tx info s = .error e s') :
    SameSubscription s s' ↔ AddsWhole (unconfirmedBlock index) tx.toTransactionReader
      (info.of s.spendKey) s.container := by
  rcases processOutputs_cases hu with ⟨-,_,hok⟩ | ⟨-,_,_,hrun,her⟩
  · rw [hok] at h
    cases h
  · rw [her] at h
    cases h
    rw [← add_same_iff]
    constructor
    · intro hs e' d' hrun'
      rw [hrun] at hrun'
      cases hrun'
      exact hs.container
    · intro hall
      rw [same_of_adds_whole (add_same_iff.mp hall) hrun]
      exact .refl s

variable (scheme getGlobalIndices)

def Spared (tx : WalletTransaction) (c : TransfersConsumer) : Prop :=
  ∀ info, preprocessOutputs scheme getGlobalIndices c (unconfirmedBlock 0) tx = .ok info →
    ∀ s ∈ c.subscriptions, Untouched tx (info.of s.spendKey) s.container

def RefusesWhole (tx : WalletTransaction) (c : TransfersConsumer) : Prop :=
  ∀ info, preprocessOutputs scheme getGlobalIndices c (unconfirmedBlock 0) tx = .ok info →
    ∀ before s after, c.subscriptions = before ++ s :: after →
      (∀ t ∈ before, Accepts 0 tx (info.of t.spendKey) t.container) →
      ¬ Accepts 0 tx (info.of s.spendKey) s.container →
      (∀ t ∈ before, Untouched tx (info.of t.spendKey) t.container) ∧
        AddsWhole (unconfirmedBlock 0) tx.toTransactionReader (info.of s.spendKey) s.container

variable {scheme getGlobalIndices}

theorem added_same_iff (h : addUnconfirmedTransaction scheme getGlobalIndices tx c = .ok () c') :
    SameConsumer c c' ↔ Spared scheme getGlobalIndices tx c := by
  cases hi : preprocessOutputs scheme getGlobalIndices c (unconfirmedBlock 0) tx with
  | error _ =>
    rw [addUnconfirmedTransaction, processTransaction_not_preprocessed hi] at h
    cases h
  | ok info =>
    rw [addUnconfirmedTransaction, processTransaction_preprocessed hi] at h
    obtain ⟨_,hrun,rfl⟩ := (within_ok _ _ _ _ _ _).mp h
    have hiff := subscriptions_same_iff (each_ok.mp hrun)
    constructor
    · intro hs info' hi'
      rw [hi] at hi'
      cases hi'
      exact hiff.mp hs.subscriptions
    · intro hsp
      exact ⟨rfl,rfl,hiff.mpr (hsp info hi)⟩

theorem refused_same_iff {ref : Refusal}
    (h : addUnconfirmedTransaction scheme getGlobalIndices tx c = .error (.thrown ref) c') :
    SameConsumer c c' ↔ RefusesWhole scheme getGlobalIndices tx c := by
  cases hi : preprocessOutputs scheme getGlobalIndices c (unconfirmedBlock 0) tx with
  | error _ =>
    rw [addUnconfirmedTransaction, processTransaction_not_preprocessed hi] at h
    cases h
    cases preprocessOutputs_stop hi
  | ok info =>
    have hu : ∀ t : Subscription, Unindexed (info.of t.spendKey) :=
      fun t => preprocessOutputs_unconfirmed hi t.spendKey
    have hiff : ∀ {pre s s' after done e}, c.subscriptions = pre ++ s :: after →
        List.Forall₂ (Done (processOutputs (unconfirmedBlock 0) tx info)) pre done →
        processOutputs (unconfirmedBlock 0) tx info s = .error e s' →
        (SameConsumer c (c.setSubscriptions (done ++ s' :: after)) ↔
          (∀ t ∈ pre, Untouched tx (info.of t.spendKey) t.container) ∧ AddsWhole
            (unconfirmedBlock 0) tx.toTransactionReader (info.of s.spendKey) s.container) := by
      intro pre s s' after done e hsu hd hs
      rw [← processOutputs_refused_iff (hu s) hs, ← subscriptions_same_iff hd,
        ← forall₂_stopped_iff SameSubscription.refl hd, ← hsu]
      exact ⟨fun h => h.subscriptions,fun h => ⟨rfl,rfl,h⟩⟩
    rw [addUnconfirmedTransaction, processTransaction_preprocessed hi] at h
    obtain ⟨_,hrun,rfl⟩ := (within_error _ _ _ _ _ _).mp h
    constructor
    · intro hsa info' hi' pre s after hsu hbef hr
      rw [hi] at hi'
      cases hi'
      -- the run stops at this subscription, and there is only one run
      have hall : ∀ t ∈ pre, ∃ t', Done (processOutputs (unconfirmedBlock 0) tx info) t t' := by
        intro t ht
        rcases processOutputs_cases (hu t) with ⟨-,hok⟩ | ⟨hnot,-⟩
        · exact hok
        · exact absurd (hbef t ht) hnot
      obtain ⟨done,hd⟩ := exists_all_done hall
      rcases processOutputs_cases (hu s) with ⟨ha,-⟩ | ⟨-,ref',d,-,hs⟩
      · exact absurd ha hr
      · have hst := each_error.mpr ⟨pre,s,_,after,done,hsu,hd,hs,rfl⟩
        rw [hrun] at hst
        cases hst
        exact (hiff hsu hd hs).mp hsa
    · intro hwh
      obtain ⟨pre,s,s',after,done,hsu,hd,hs,rfl⟩ := each_error.mp hrun
      apply (hiff hsu hd hs).mpr
      apply hwh info hi pre s after hsu
      · intro t ht
        obtain ⟨t',-,hok⟩ := forall₂_mem_left hd ht
        rcases processOutputs_cases (hu t) with ⟨ha,-⟩ | ⟨-,ref',d,-,her⟩
        · exact ha
        · rw [Done, her] at hok
          cases hok
      · rcases processOutputs_cases (hu s) with ⟨-,t,hok⟩ | ⟨hnot,-⟩
        · rw [hok] at hs
          cases hs
        · exact hnot

end Consumers

section Synchronizer

variable {scheme : KeyScheme} {getGlobalIndices : Hash → Except ErrorCode (List ℕ)}
  {cs cs' : List TransfersConsumer}

theorem addUnconfirmedTransaction_stop {c c' : TransfersConsumer} {e : Stop}
    (h : addUnconfirmedTransaction scheme getGlobalIndices tx c = .error e c') :
    e = .undefined ∨ ∃ ref, e = .thrown ref := by
  rw [addUnconfirmedTransaction] at h
  rcases processTransaction_cases scheme getGlobalIndices 0 tx c with
    ⟨-,d,hok⟩ | ⟨-,ref,d,ht⟩ | ⟨-,-,hund⟩
  · rw [hok] at h
    cases h
  · rw [ht] at h
    cases h
    exact .inr ⟨ref,rfl⟩
  · rw [hund] at h
    cases h
    exact .inl rfl

theorem failsWith_iff : FailsWith scheme getGlobalIndices tx cs cs' ↔
    ∃ pre c c' after done ref, cs = pre ++ c :: after ∧
      List.Forall₂ (Done (addUnconfirmedTransaction scheme getGlobalIndices tx)) pre done ∧
      addUnconfirmedTransaction scheme getGlobalIndices tx c = .error (.thrown ref) c' ∧
      cs' = done ++ c' :: after := by
  constructor
  · intro h
    unfold FailsWith doAddUnconfirmedTransaction at h
    cases hadv : advance (addUnconfirmedTransaction scheme getGlobalIndices tx) cs with
    | mk done stop =>
      rw [hadv] at h
      cases stop with
      | none => simp at h
      | some stop =>
        obtain ⟨_,_⟩ := stop
        obtain ⟨pre,c,c',after,hspl,hd,hs,rfl⟩ := advance_stopped.mp hadv
        rcases addUnconfirmedTransaction_stop hs with rfl | ⟨ref,rfl⟩
        · simp at h
        · refine ⟨pre,c,c',after,done,ref,hspl,hd,hs,?_⟩
          simpa [eq_comm] using h
  · rintro ⟨pre,c,c',after,done,ref,hspl,hd,hs,rfl⟩
    have hadv := advance_stopped.mpr ⟨pre,c,c',after,hspl,hd,hs,rfl⟩
    unfold FailsWith doAddUnconfirmedTransaction
    rw [hadv]
    exact .inr ⟨ref,rfl⟩

variable (scheme getGlobalIndices)

def Harmless (tx : WalletTransaction) (consumers : List TransfersConsumer) : Prop :=
  ∀ before c after, consumers = before ++ c :: after →
    (∀ b ∈ before, AcceptedBy scheme getGlobalIndices 0 tx b) →
    RefusedBy scheme getGlobalIndices 0 tx c →
    (∀ b ∈ before, Spared scheme getGlobalIndices tx b) ∧
      RefusesWhole scheme getGlobalIndices tx c

variable {scheme getGlobalIndices}

theorem consumers_same_iff {pre done after : List TransfersConsumer} {c c' : TransfersConsumer}
    {ref : Refusal}
    (hd : List.Forall₂ (Done (addUnconfirmedTransaction scheme getGlobalIndices tx)) pre done)
    (hs : addUnconfirmedTransaction scheme getGlobalIndices tx c = .error (.thrown ref) c') :
    List.Forall₂ SameConsumer (pre ++ c :: after) (done ++ c' :: after) ↔
      (∀ b ∈ pre, Spared scheme getGlobalIndices tx b) ∧
        RefusesWhole scheme getGlobalIndices tx c := by
  rw [forall₂_stopped_iff SameConsumer.refl hd, refused_same_iff hs]
  apply and_congr_left
  intro _
  apply forall₂_done_iff _ hd
  intro b b' _ hb
  exact added_same_iff hb

/-- A failed call leaves every consumer as it was exactly if the first
container that refuses the transaction takes nothing before, and no container
before that one takes anything. -/
theorem failed_addition_unchanged_iff (scheme : KeyScheme)
    (getGlobalIndices : Hash → Except ErrorCode (List ℕ)) (tx : WalletTransaction)
    (consumers : List TransfersConsumer) :
    (∀ consumers', FailsWith scheme getGlobalIndices tx consumers consumers' →
      List.Forall₂ SameConsumer consumers consumers') ↔
      Harmless scheme getGlobalIndices tx consumers := by
  constructor
  · intro h before c after hspl hbef href
    obtain ⟨done,hd⟩ := exists_all_done fun b hb => processTransaction_ok_iff.mpr (hbef b hb)
    obtain ⟨refusal,c',hs⟩ := processTransaction_thrown_iff.mpr href
    have hfls := h _ (failsWith_iff.mpr ⟨before,c,c',after,done,refusal,hspl,hd,hs,rfl⟩)
    rw [hspl] at hfls
    exact (consumers_same_iff hd hs).mp hfls
  · intro h consumers' hfls
    obtain ⟨before,c,c',after,done,refusal,rfl,hd,hs,rfl⟩ := failsWith_iff.mp hfls
    apply (consumers_same_iff hd hs).mpr
    apply h before c after rfl
    · intro b hb
      obtain ⟨b',-,hok⟩ := forall₂_mem_left hd hb
      exact processTransaction_ok_iff.mp ⟨b',hok⟩
    · exact processTransaction_thrown_iff.mp ⟨refusal,c',hs⟩

end Synchronizer

def spentSubscription : Subscription :=
  ⟨sampleAccount, left (addTransaction (unconfirmedBlock 0) (sampleReader 8 [.key 60 [] 4]) []
    (left (addTransaction ⟨1, 0, 0⟩ (sampleReader 2 []) [sampleTransfer 60 9 0 4] .empty)))⟩

def sampleConsumers : List TransfersConsumer :=
  [⟨2, [sampleSubscription], ∅⟩, ⟨3, [spentSubscription], ∅⟩]

def samplePayment : WalletTransaction :=
  ⟨sampleReader 9 [.key 50 [] 3, .key 60 [] 4], []⟩

/-- The second consumer throws, and the output of the first stays spent. -/
theorem first_consumer_kept :
    ∃ consumers', FailsWith sampleScheme noIndices samplePayment sampleConsumers consumers' ∧
      ¬ List.Forall₂ SameConsumer sampleConsumers consumers' := by
  have hrun : fault (doAddUnconfirmedTransaction sampleScheme noIndices samplePayment
      sampleConsumers) = some (.thrown .alreadySpent) := by decide
  refine ⟨_,.inr ⟨_,eq_error_of_fault hrun⟩,?_⟩
  intro hs
  cases hs with
  | cons hfst _ =>
    cases hfst.subscriptions with
    | cons hsu _ =>
      exact absurd hsu.container.transfers.available.length_eq (by decide)

end Orbis.WalletUnconfirmed
