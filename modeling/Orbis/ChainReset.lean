import Orbis.ChainCache

/-!
# Starting over from a genesis block

`resetAndSetGenesisBlock` empties the chain and adds a block to what is left.
It forgets two things: the table of multisignature outputs, and the running
number behind the index of generated transactions. So it does what a newly
constructed chain would do exactly if both happen to be empty.
-/

set_option autoImplicit false

namespace Orbis.ChainReset

open FaultState VectorTable ChainTypes ChainSemantic ChainTables ChainBlock ChainPool
open ChainNode ChainCache ChainRun

/-- What the reset clears. The table of multisignature outputs is not among
it, and clearing the index of generated transactions keeps its counter. -/
def clearBlockchain (m : MainChain) : MainChain where
  blocks := []
  blockIndex := []
  tables := { Tables.empty with multisignatureOutputs := m.tables.multisignatureOutputs }
  timestampIndex := 0
  generatedTransactionsIndex := GeneratedTransactionsIndex.clear m.generatedTransactionsIndex

def clearNode (n : Node) : Node :=
  { n with
    main := clearBlockchain n.main
    alternativeChains := ∅
    orthanBlocksIndex := 0 }

variable (env : Env) (now : UInt64)

def resetAndSetGenesisBlock (fuel : ℕ) (b : Block) : EStateM Fault Node Bool := do
  modify clearNode
  let (_, bvc) ← addNewBlock env now fuel b
  pure (bvc.addedToMainChain && !bvc.verificationFailed)

def construct (pool : Pool) : Node := Node.empty.setPool pool

structure SameUpToLimit (n n' : Node) : Prop where
  main : n.main = n'.main
  alternatives : n.alternativeChains = n'.alternativeChains
  orthan : n.orthanBlocksIndex = n'.orthanBlocksIndex
  pool : n.pool = n'.pool

variable {env now} {b : Block} {s t : Node}

variable {id : Hash} {n : Node} {fuel : ℕ}

section Limit

variable (env now) in
theorem addTx_kept (m : MainChain) (limit limit' : UInt64) (tx : Transaction) (id : Hash)
    (bsz : UInt64) (p : Pool) :
    addTx env now m limit tx id bsz true p = addTx env now m limit' tx id bsz true p := by
  unfold addTx admitTx
  simp only [Bool.not_true, Bool.false_and, Bool.false_eq_true, if_false]

theorem returnTx_blind (tx : Transaction) : Blind SameUpToLimit (returnTx env now tx) := by
  intro s t h
  have hadd := addTx_kept env now t.main s.currentBlockCumulSzLimit t.currentBlockCumulSzLimit tx
    (env.getObjectHash tx) (getObjectBinarySize tx) t.pool
  unfold returnTx
  rw [get_bind, get_bind, bind_run, bind_run]
  simp only [reading, h.main, h.pool, hadd]
  cases addTx env now t.main t.currentBlockCumulSzLimit tx (env.getObjectHash tx)
    (getObjectBinarySize tx) true t.pool with
  | ok _ => exact ⟨rfl,h.main,h.alternatives,h.orthan,rfl⟩
  | error _ => exact ⟨rfl,h⟩

theorem returnTxs_blind (txs : List Transaction) : Blind SameUpToLimit (returnTxs env now txs) := by
  induction txs with
  | nil => exact blind_pure _
  | cons tx _ ih =>
    apply blind_bind (returnTx_blind tx)
    intro added
    cases added with
    | true => exact fun s t h => ih s t h
    | false => exact fun s t h => ⟨rfl,h⟩

theorem takeTransaction_blind (id : Hash) : Blind SameUpToLimit (takeTransaction env id) := by
  intro s t h
  unfold takeTransaction
  rw [get_bind, get_bind, h.pool]
  exact ⟨rfl,h.main,h.alternatives,h.orthan,rfl⟩

theorem loadTransactions_blind {ids : List Hash} {done : List Transaction} :
    Blind SameUpToLimit (loadTransactions env now ids done) := by
  induction ids generalizing done with
  | nil => exact blind_pure _
  | cons id _ ih =>
    apply blind_bind (takeTransaction_blind id)
    intro taken
    cases taken with
    | none => exact blind_bind (returnTxs_blind done) fun _ => blind_pure _
    | some _ => exact ih

theorem pushPoolBlock_blind (b : Block) : Blind SameUpToLimit (pushPoolBlock env now b) := by
  apply blind_bind loadTransactions_blind
  intro ld
  cases ld with
  | none => exact blind_pure _
  | some _ =>
    apply blind_bind
    · exact blind_within _ (fun s t h => h.main) fun s t u h => ⟨rfl,h.alternatives,h.orthan,h.pool⟩
    · rintro ⟨added,_⟩
      cases added with
      | true =>
        apply blind_bind
        · exact blind_modify fun s t h => ⟨h.main,h.alternatives,h.orthan,h.pool⟩
        · exact fun _ => blind_pure _
      | false => exact blind_bind (returnTxs_blind _) fun _ => blind_pure _

theorem findTransactions_congr (h : SameUpToLimit s t) (ids : List Hash) :
    findTransactions s ids = findTransactions t ids := by
  induction ids with
  | nil => rfl
  | cons _ _ ih => rw [findTransactions, findTransactions, ih, h.main, h.pool]

theorem examineAlternative_bare (hix : n.main.blockIndex = [])
    (hn : n.alternativeChains = ∅) :
    examineAlternative env b id n =
      if getBlockHeight b = 0 then .ok (.refuse .failed)
      else if !env.checkpoints.isAlternativeBlockAllowed n.main.blocks.length
          (getBlockHeight b) then .ok (.refuse .failed)
      else (do
        let cumulativeSize ← getBlockCumulativeSize b n
        if !checkCumulativeBlockSize env cumulativeSize (getBlockHeight b) then
          .ok (.refuse .failed)
        else .ok .orphan) := by
  have ho : b.previousBlockHash ∉ n.alternativeChains ∧
      b.previousBlockHash ∉ n.main.blockIndex := by
    rw [hix, hn]
    exact ⟨Finmap.notMem_empty,List.not_mem_nil⟩
  unfold examineAlternative
  simp only [if_pos ho]

theorem alternativeBlock_bare {readd : Handler} (h : SameUpToLimit s t)
    (hix : t.main.blockIndex = [])
    (hn : t.alternativeChains = ∅) : Alike SameUpToLimit (alternativeBlock env now readd b id s)
      (alternativeBlock env now readd b id t) := by
  have hs : getBlockCumulativeSize b s = getBlockCumulativeSize b t := by
    unfold getBlockCumulativeSize
    rw [findTransactions_congr h]
  have hex : examineAlternative env b id s = examineAlternative env b id t := by
    rw [examineAlternative_bare (h.main ▸ hix) (h.alternatives ▸ hn),
      examineAlternative_bare hix hn, hs, h.main]
  have hk : ∀ alt e point, examineAlternative env b id t ≠ .ok (.store alt e point) := by
    intro alt e point
    rw [examineAlternative_bare hix hn]
    cases getBlockCumulativeSize b t with
    | error _ => split_ifs <;> simp [bind, Except.bind]
    | ok _ =>
      simp only [bind, Except.bind]
      split_ifs <;> simp
  unfold alternativeBlock
  rw [bind_run, bind_run]
  simp only [reading, hex]
  cases hv : examineAlternative env b id t with
  | error _ => exact ⟨rfl,h⟩
  | ok verdict =>
    cases verdict with
    | refuse _ => exact ⟨rfl,h⟩
    | orphan => exact ⟨rfl,h⟩
    | store alt e point => exact (hk alt e point hv).elim

end Limit

theorem addNewBlock_bare (h : SameUpToLimit s t) (hix : t.main.blockIndex = [])
    (hn : t.alternativeChains = ∅) :
    Alike SameUpToLimit (addNewBlock env now fuel b s) (addNewBlock env now fuel b t) := by
  unfold addNewBlock
  rw [get_bind, get_bind]
  have hh : haveBlock (env.getBlockHash b) s = haveBlock (env.getBlockHash b) t := by
    unfold haveBlock
    rw [h.main, h.alternatives]
  rw [hh, h.main]
  split_ifs
  · exact ⟨rfl,h⟩
  · exact ⟨rfl,h⟩
  · cases fuel with
    | zero => exact alternativeBlock_bare h hix hn
    | succ _ => exact alternativeBlock_bare h hix hn
  · exact pushPoolBlock_blind b s t h

structure SameChain (n n' : Node) : Prop where
  main : n.main = n'.main
  alternatives : n.alternativeChains = n'.alternativeChains
  orthan : n.orthanBlocksIndex = n'.orthanBlocksIndex

theorem left_bind_pure {σ α β : Type} {x : EStateM Fault σ α} {f : α → β} {s : σ} :
    left ((x >>= fun a => pure (f a)) s) = left (x s) := by
  rw [bind_run]
  cases x s <;> rfl

theorem left_reset : left (resetAndSetGenesisBlock env now fuel b n) =
      left (addNewBlock env now fuel b (clearNode n)) := by
  unfold resetAndSetGenesisBlock
  rw [modify_bind]
  exact left_bind_pure

/-- Starting over is the same as starting exactly if the chain had no
multisignature outputs and had counted no transactions. -/
theorem reset_as_constructed_iff (n : Node) :
    (∀ now fuel b, SameChain (left (resetAndSetGenesisBlock env now fuel b n))
        (left (addNewBlock env now fuel b (construct n.pool)))) ↔
      n.main.tables.multisignatureOutputs = ∅ ∧
        n.main.generatedTransactionsIndex.lastGeneratedTxNumber = 0 := by
  constructor
  · intro h
    -- a block of a later version is refused at once and shows what was cleared
    have hs := h 0 0 { env.currency.genesisBlock with majorVersion := 2 }
    rw [left_reset] at hs
    have hm : clearBlockchain n.main = MainChain.empty := hs.main
    exact ⟨congrArg (fun m => m.tables.multisignatureOutputs) hm,
      congrArg (fun m => m.generatedTransactionsIndex.lastGeneratedTxNumber) hm⟩
  · rintro ⟨ho,hc⟩ now fuel b
    have hclr : SameUpToLimit (clearNode n) (construct n.pool) := by
      refine ⟨?_,rfl,rfl,rfl⟩
      change clearBlockchain n.main = MainChain.empty
      unfold clearBlockchain GeneratedTransactionsIndex.clear
      rw [ho, hc]
      rfl
    have halk : SameUpToLimit (left (addNewBlock env now fuel b (clearNode n)))
        (left (addNewBlock env now fuel b (construct n.pool))) :=
      (addNewBlock_bare hclr rfl rfl).left
    rw [left_reset]
    exact ⟨halk.main,halk.alternatives,halk.orthan⟩

/-- The genesis chain with one multisignature output, started over with its own
genesis block: the old output stays in the table and the counter goes on. -/
theorem reset_sample_differs :
    Run sampleEnv Set.univ (fun _ => True) False 0 sampleNode ∧
    value (resetAndSetGenesisBlock sampleEnv 0 0 sampleEnv.currency.genesisBlock sampleNode) =
      some true ∧
    let again := left (resetAndSetGenesisBlock sampleEnv 0 0 sampleEnv.currency.genesisBlock
      sampleNode)
    let anew := left (addNewBlock sampleEnv 0 0 sampleEnv.currency.genesisBlock
      (construct sampleNode.pool))
    (bucket again.main.tables.multisignatureOutputs 5297660827636).length = 2 ∧
      (bucket anew.main.tables.multisignatureOutputs 5297660827636).length = 1 ∧
      again.main.generatedTransactionsIndex.lastGeneratedTxNumber = 2 ∧
      anew.main.generatedTransactionsIndex.lastGeneratedTxNumber = 1 := by
  refine ⟨sampleNode_run trivial,?_⟩
  decide +kernel

end Orbis.ChainReset
