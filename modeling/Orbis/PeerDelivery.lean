import Orbis.PeerHandler

/-!
# Deliveries of blocks

A response to a request for blocks is read against the ids that the connection
asked for. Each block takes its id out of that set, and only a response that
empties it is handed to the core, block by block, with a pause for the other
connections after each. The core is a machine of its own here: two calls
change its pool and its chain, and the responses that are refused reach
neither.
-/

set_option autoImplicit false

namespace Orbis.PeerDelivery

open ByteCodec ChainTypes ChainBinary PeerHandler

section Machine

variable {σ : Type*}

structure CoreMachine (σ : Type*) where
  view : σ → Core
  handleIncomingTx : Bytes → σ → Bool × σ
  handleIncomingBlock : Bytes → σ → BlockVerificationContext × σ

def CoreMachine.offerTxs (m : CoreMachine σ) : List Bytes → σ → Bool × σ
  | [], s => (false, s)
  | tx :: txs, s =>
    match m.handleIncomingTx tx s with
    | (true, s) => (true, s)
    | (false, s) => m.offerTxs txs s

def CoreMachine.offer (m : CoreMachine σ) (entry : BlockCompleteEntry) (s : σ) : Core × σ :=
  match m.offerTxs entry.txs s with
  | (true, s) => ({ m.view s with verificationFailed := fun _ => true }, s)
  | (false, s) =>
    let r := m.handleIncomingBlock entry.block s
    ({ m.view r.2 with verificationFailed := fun _ => false, handleIncomingBlock := r.1 }, r.2)

variable (m : CoreMachine σ) (others : σ → Handler → σ × Handler)

/-- The loop of `processObjects`. After each block the `others` run. -/
def processBlocks : List BlockCompleteEntry → σ → Handler → ConnectionContext → Outcome × σ
  | [], s, h, c => (processObjects (m.view s) h [] c, s)
  | entry :: entries, s, h, c =>
    if h.stop then (processObjects (m.view s) h [] c, s)
    else
      let r := m.offer entry s
      let o := processObjects r.1 h (entry :: entries) c
      if o.task = .settling then (o, r.2)
      else
        let w := others r.2 o.handler
        processBlocks entries w.1 w.2 o.context

variable (getBlockHash : Block → Hash)

def handleDelivery (h : Handler) (s : σ) (currentHeight : UInt32)
    (blocks : List BlockCompleteEntry) (c : ConnectionContext) : Outcome × σ :=
  let o := handleResponseGetObjects getBlockHash (m.view s) h currentHeight blocks c
  match o.task with
  | .processing blocks => processBlocks m others blocks s o.handler o.context
  | _ => (o, s)

end Machine

variable {cnt : ℕ} {es : List BlockCompleteEntry} {c c' : ConnectionContext}

section Checks

variable (getBlockHash : Block → Hash)

def Complete (entry : BlockCompleteEntry) (b : Block) : Prop :=
  fromBinaryArray readBlock entry.block = some b ∧ b.transactionHashes.length = entry.txs.length

def Delivered (blocks : List BlockCompleteEntry) (requested : Finset Hash) : Prop :=
  ∃ parsed : List Block, List.Forall₂ Complete blocks parsed ∧
    (parsed.map getBlockHash).Nodup ∧ (parsed.map getBlockHash).toFinset = requested

def Ended (c : ConnectionContext) : Prop :=
  c.state = .shutdown ∨ c.state = .idle ∧ c.neededObjects = [] ∧ c.requestedObjects = ∅

theorem ended_drop (c : ConnectionContext) : Ended c.drop := .inl rfl

theorem ended_suspend (c : ConnectionContext) : Ended c.suspend := .inr ⟨rfl,rfl,rfl⟩

theorem receiveBlocks_true (core : Core)
    (hrec : receiveBlocks getBlockHash core cnt es c = (true, c')) :
    ∃ prd : List Block, List.Forall₂ Complete es prd ∧ (prd.map getBlockHash).Nodup ∧
      (prd.map getBlockHash).toFinset ⊆ c.requestedObjects ∧
      c'.requestedObjects = c.requestedObjects \ (prd.map getBlockHash).toFinset := by
  induction es generalizing cnt c with
  | nil =>
    obtain rfl : c = c' := congrArg Prod.snd hrec
    exact ⟨[],.nil,List.nodup_nil,by simp,by simp⟩
  | cons e _ ih =>
    rw [receiveBlocks] at hrec
    cases hp : fromBinaryArray readBlock e.block with
    | none => simp [hp] at hrec
    | some b =>
      simp only [hp] at hrec
      split_ifs at hrec with hsnd hkn hcnt
      · simp at hrec
      · simp at hrec
      · obtain ⟨prd,hall,hnd,hsub,hl⟩ := ih hrec
        have hfr : getBlockHash b ∉ (prd.map getBlockHash).toFinset := by
          intro hmem
          exact Finset.notMem_erase _ _ (hsub hmem)
        refine ⟨b :: prd,.cons ⟨hp,not_ne_iff.mp hcnt⟩ hall,?_,?_,?_⟩
        · rw [List.map_cons, List.nodup_cons]
          exact ⟨fun hmem => hfr (List.mem_toFinset.mpr hmem),hnd⟩
        · rw [List.map_cons, List.toFinset_cons]
          apply Finset.insert_subset hkn
          exact fun id hid => Finset.mem_of_mem_erase (hsub hid)
        · rw [hl, List.map_cons, List.toFinset_cons]
          ext id
          simp only [Finset.mem_sdiff, Finset.mem_erase, Finset.mem_insert]
          tauto
      · simp at hrec

theorem receiveBlocks_false (core : Core)
    (hrec : receiveBlocks getBlockHash core cnt es c = (false, c')) : Ended c' := by
  induction es generalizing cnt c with
  | nil => simp [receiveBlocks] at hrec
  | cons e _ ih =>
    rw [receiveBlocks] at hrec
    cases hp : fromBinaryArray readBlock e.block with
    | none =>
      simp only [hp, Prod.mk.injEq, true_and] at hrec
      exact hrec ▸ ended_drop c
    | some _ =>
      simp only [hp] at hrec
      split_ifs at hrec with hsnd hkn hcnt
      · simp only [Prod.mk.injEq, true_and] at hrec
        exact hrec ▸ ended_suspend c
      · simp only [Prod.mk.injEq, true_and] at hrec
        exact hrec ▸ ended_drop c
      · exact ih hrec
      · simp only [Prod.mk.injEq, true_and] at hrec
        exact hrec ▸ ended_drop c

theorem handleResponseGetObjects_cases (core : Core) (h : Handler) (ch : UInt32)
    (bs : List BlockCompleteEntry) (c : ConnectionContext) :
    let o := handleResponseGetObjects getBlockHash core h ch bs c
    o.task = .settling ∧ Ended o.context ∨
      o.task = .processing bs ∧ Delivered getBlockHash bs c.requestedObjects := by
  dsimp only
  unfold handleResponseGetObjects
  by_cases hla : ch < c.lastResponseHeight
  · rw [if_pos hla]
    exact .inl ⟨rfl,ended_drop c⟩
  · rw [if_neg hla]
    dsimp only
    cases hrec : receiveBlocks getBlockHash core 0 bs (report core h c ch).2 with
    | mk all c' =>
      cases all with
      | false => exact .inl ⟨rfl,receiveBlocks_false getBlockHash core hrec⟩
      | true =>
        dsimp only
        by_cases hl : c'.requestedObjects = ∅
        · rw [if_neg (not_not_intro hl)]
          obtain ⟨prd,hall,hnd,hsub,her⟩ := receiveBlocks_true getBlockHash core hrec
          refine .inr ⟨rfl,prd,hall,hnd,?_⟩
          apply Finset.Subset.antisymm hsub
          exact Finset.sdiff_eq_empty_iff_subset.mp (her.symm.trans hl)
        · rw [if_pos hl]
          exact .inl ⟨rfl,ended_drop c'⟩

variable {σ : Type*} (m : CoreMachine σ) (others : σ → Handler → σ × Handler)

/-- The blocks are handed on only if they are exactly the requested ones. In
every other case the core stays as it was and the connection is at its end or
waits with nothing left to fetch. -/
theorem handleDelivery_checked (h : Handler) (s : σ) (currentHeight : UInt32)
    (blocks : List BlockCompleteEntry) (c : ConnectionContext) :
    let o := handleResponseGetObjects getBlockHash (m.view s) h currentHeight blocks c
    let r := handleDelivery m others getBlockHash h s currentHeight blocks c
    (∀ handed, o.task = .processing handed →
        handed = blocks ∧ Delivered getBlockHash blocks c.requestedObjects) ∧
      ((∀ handed, o.task ≠ .processing handed) → r.2 = s ∧ Ended r.1.context) := by
  dsimp only
  rcases handleResponseGetObjects_cases getBlockHash (m.view s) h currentHeight blocks c with
    ⟨ht,hend⟩ | ⟨ht,hd⟩
  · constructor
    · intro handed hp
      rw [ht] at hp
      cases hp
    · intro _
      rw [handleDelivery, ht]
      exact ⟨rfl,hend⟩
  · constructor
    · intro handed hp
      rw [ht] at hp
      exact ⟨(Task.processing.inj hp).symm,hd⟩
    · intro hnot
      exact absurd ht (hnot blocks)

end Checks

end Orbis.PeerDelivery
