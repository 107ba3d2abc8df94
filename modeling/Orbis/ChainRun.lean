import Orbis.ChainHistory
import Orbis.ChainOutcome

/-!
# Runs of the node

A run starts from the genesis block and goes on with new blocks, incoming
transactions and the removal of expired ones. Every call that returns keeps
the node good: a refused block, a failed change of chains and its rollback
included, as long as the blocks of the run are within the size limit, and
without that condition as long as all blocks are accepted.
-/

set_option autoImplicit false

namespace Orbis.ChainRun

open FaultState ChainTypes ChainCurrency ChainSignature ChainSemantic ChainBlock ChainPool
open ChainPoolIndex ChainSound ChainNode ChainHeld ChainHistory ChainOutcome

variable {env : Env} {U : Set Transaction} {P : Block → Prop} {clock now : UInt64}

variable {n n' : Node} {alt : AltChain} {b : Block}

theorem eraseAlternatives_main (alt : AltChain) (n : Node) :
    (eraseAlternatives env alt n).main = n.main := by
  induction alt generalizing n with
  | nil => rfl
  | cons _ _ ih => exact ih _

theorem eraseAlternatives_pool (alt : AltChain) (n : Node) :
    (eraseAlternatives env alt n).pool = n.pool := by
  induction alt generalizing n with
  | nil => rfl
  | cons _ _ ih => exact ih _

theorem eraseAlternatives_lookup {id : Hash} :
    (eraseAlternatives env alt n).alternativeChains.lookup id =
      if id ∈ alt.map Prod.fst then none else n.alternativeChains.lookup id := by
  induction alt generalizing n with
  | nil => rfl
  | cons e rest ih =>
    have hs := @ih (eraseAlternative env e n)
    change (eraseAlternatives env rest (eraseAlternative env e n)).alternativeChains.lookup id = _
    rw [hs]
    by_cases hr : id ∈ rest.map Prod.fst
    · rw [if_pos hr, if_pos (by simp [hr])]
    · rw [if_neg hr]
      by_cases hid : id = e.1
      · subst hid
        simp [eraseAlternative]
      · rw [if_neg (by simp [hid, hr]), eraseAlternative, Finmap.lookup_erase_ne hid]

theorem eraseAlternatives_good (hg : Good env U P clock n) (alt : AltChain) :
    Good env U P clock (eraseAlternatives env alt n) := by
  refine hg.onAlternatives (eraseAlternatives_main alt n) (eraseAlternatives_pool alt n) ?_
  intro id e hl
  rw [eraseAlternatives_lookup] at hl
  split_ifs at hl
  exact hg.alternatives id e hl

theorem insertAlternative_good (hg : Good env U P clock n) {e : BlockEntry} (hent : P e.bl) :
    Good env U P clock (insertAlternative env (env.getBlockHash e.bl) e n) := by
  refine hg.onAlternatives rfl rfl ?_
  intro id o hl
  by_cases hid : id = env.getBlockHash e.bl
  · subst hid
    rw [insertAlternative, Finmap.lookup_insert] at hl
    cases hl
    exact ⟨rfl,hent⟩
  · rw [insertAlternative, Finmap.lookup_insert_of_ne _ hid] at hl
    exact hg.alternatives id o hl

variable {l : List Block} {strict : Prop}

theorem allowed_of_raised {m top : MainChain} (h : Raised env U P clock m l top)
    : ∀ b ∈ l, P b := by
  induction h with
  | nil =>
    intro b hb
    cases hb
  | cons step _ ih =>
    obtain ⟨_,_,_,_,-,hb,-⟩ := step
    intro o hoth
    rcases List.mem_cons.mp hoth with rfl | hr
    · exact hb
    · exact ih o hr

section Steps

variable (hU : TxInj env U) (hP : Countable U P) (htime : now ≤ clock)

include hU hP htime

theorem connect_kept {refused : AltChain} (hg : Good env U P clock n) (halt : ∀ e ∈ alt, P e.2.bl)
    (hf : refused ≠ [] → ∀ b, P b → Fits env U b) (h : connect env now alt n = .ok refused n') :
    Kept env U P clock n n' ∧ ∃ done, alt = done ++ refused ∧
      Raised env U P clock n.main (done.map fun e => e.2.bl) n'.main := by
  induction alt generalizing n with
  | nil =>
    cases h
    exact ⟨hg.refl,[],rfl,.nil⟩
  | cons e _ ih =>
    simp only [connect, bind_ok] at h
    obtain ⟨⟨added,_⟩,_,hp,hr⟩ := h
    have hb := halt e (by simp)
    cases added with
    | false =>
      cases hr
      obtain ⟨hk,hs,-⟩ := pushPoolBlock_kept hU hP htime hg hb hp (fun _ => hf (by simp) _ hb)
      exact ⟨hk,[],rfl,hs rfl ▸ .nil⟩
    | true =>
      obtain ⟨hk,hst⟩ := pushPoolBlock_extends hU hP htime hg hb hp
      obtain ⟨-,-,ht⟩ := pushPoolBlock_kept hU hP htime hg hb hp (fun hff => Bool.noConfusion hff)
      obtain ⟨rfl,-⟩ := ht rfl
      obtain ⟨hk',done,rfl,hrsd⟩ := ih hk.good
        (fun o hoth => halt o (List.mem_cons_of_mem _ hoth)) hr
      exact ⟨hk.trans hk',e :: done,rfl,.cons hst hrsd⟩

theorem rollback_kept {orig : List Block} {ht : ℕ} {suc : Bool} (hg : Good env U P clock n)
    (hl : ∀ b ∈ orig, P b) (hf : ∀ b, P b → Fits env U b)
    (h : rollbackBlockchainSwitching env now orig ht n = .ok suc n') : Kept env U P clock n n' := by
  unfold rollbackBlockchainSwitching at h
  rw [get_bind, bind_ok] at h
  obtain ⟨_,_,hdis,hr⟩ := h
  obtain ⟨hk,-⟩ := disconnect_kept hU hg hdis
  exact hk.trans (reconnect_kept hU hP htime hk.good hl (fun _ => hf) hr).1

end Steps

def Safe (env : Env) (U : Set Transaction) (P : Block → Prop) (clock : UInt64) {α : Type}
    (accepts : α → Bool) (x : EStateM Fault Node α) : Prop :=
  ∀ n n' result, Good env U P clock n → x n = .ok result n' →
    (accepts result = false → ∀ b, P b → Fits env U b) → Good env U P clock n'

section Switch

variable (hU : TxInj env U) (hP : Countable U P) (htime : now ≤ clock)
variable {readd : Handler}
variable (hreadd : ∀ b, P b → Safe env U P clock Prod.fst (readd b))

theorem readdAll_safe (hreadd : ∀ b, P b → Safe env U P clock Prod.fst (readd b))
    (hl : ∀ b ∈ l, P b) : Safe env U P clock id (readdAll readd l) := by
  induction l with
  | nil =>
    intro n n' res hg h _
    cases h
    exact hg
  | cons b _ ih =>
    intro n n' res hg h hf
    simp only [readdAll, bind_ok] at h
    obtain ⟨⟨accepted,_⟩,u,hc,hr⟩ := h
    cases accepted with
    | false =>
      cases hr
      exact hreadd b (hl b (by simp)) n n' _ hg hc (fun _ => hf rfl)
    | true =>
      have hg' := hreadd b (hl b (by simp)) n u _ hg hc (fun hff => Bool.noConfusion hff)
      exact ih (fun o hoth => hl o (List.mem_cons_of_mem _ hoth)) u n' _ hg' hr hf

include hU hP htime hreadd

theorem switch_safe {dc : Bool} (halt : ∀ e ∈ alt, P e.2.bl) :
    Safe env U P clock id (switchToAlternativeBlockchain env now readd alt dc) := by
  intro n n' suc hg h hf
  rw [← switchWith_rollback] at h
  rcases switchWith_cases h with ⟨-,rfl,-⟩ | ⟨front,rest,-,-,-,dis,u,refused,v,hdis, hcon,hend⟩
  · exact hg
  · obtain ⟨hk,popped,rfl,-,hrsd⟩ := disconnect_kept hU hg hdis
    have hp : ∀ b ∈ popped ++ [], P b := by
      rw [List.append_nil]
      exact allowed_of_raised hrsd
    cases hend with
    | refused _ hr =>
      have hfit := hf rfl
      obtain ⟨hk',-⟩ := connect_kept hU hP htime hk.good halt (fun _ => hfit) hcon
      have hb := rollback_kept hU hP htime hk'.good hp hfit hr
      exact eraseAlternatives_good hb.good _
    | discarded =>
      obtain ⟨hk',-⟩ := connect_kept hU hP htime hk.good halt (fun hne => absurd rfl hne) hcon
      exact eraseAlternatives_good hk'.good _
    | exchanged hrdd =>
      obtain ⟨hk',-⟩ := connect_kept hU hP htime hk.good halt (fun hne => absurd rfl hne) hcon
      have hg' := readdAll_safe hreadd hp v _ true hk'.good hrdd (fun hff => Bool.noConfusion hff)
      exact eraseAlternatives_good hg' _
    | unstored hrdd hr =>
      have hfit := hf rfl
      obtain ⟨hk',-⟩ := connect_kept hU hP htime hk.good halt (fun hne => absurd rfl hne) hcon
      have hg' := readdAll_safe hreadd hp v _ false hk'.good hrdd (fun _ => hfit)
      exact (rollback_kept hU hP htime hg' hp hfit hr).good

end Switch

section Handler

variable (hU : TxInj env U) (hP : Countable U P) (htime : now ≤ clock)

include hU hP htime

theorem alternativeBlock_safe {readd : Handler}
    (hreadd : ∀ b, P b → Safe env U P clock Prod.fst (readd b)) (hb : P b) :
    Safe env U P clock Prod.fst (alternativeBlock env now readd b (env.getBlockHash b)) := by
  rintro n n' ⟨accepted,bvc⟩ hg h hf
  rw [← blockWith_switch] at h
  rcases blockWith_cases h with ⟨-,rfl,-⟩ | ⟨-,rfl,-⟩ | ⟨alt,_,_,hex,hs⟩
  · exact hg
  · exact hg
  · obtain ⟨par,hexam,rfl,-⟩ := examineAlternative_store hex
    have hi := insertAlternative_good hg (show P (storedEntry env n b alt par).bl from hb)
    rcases storeWith_cases hs with ⟨-,-,-,rfl,-⟩ | ⟨hsw,-⟩
    · exact hi
    · refine switch_safe hU hP htime hreadd ?_ _ _ _ hi hsw hf
      refine List.forall_mem_append.mpr ⟨?_,List.forall_mem_singleton.mpr hb⟩
      intro o hoth
      exact (hg.alternatives _ _ (mem_alternativeChain hexam.chain o hoth)).2

theorem handleAlternativeBlock_safe (fuel : ℕ) (hb : P b) : Safe env U P clock Prod.fst
      (handleAlternativeBlock env now fuel b (env.getBlockHash b)) := by
  induction fuel generalizing b with
  | zero =>
    refine alternativeBlock_safe hU hP htime ?_ hb
    intro old _ n n' res _ h _
    cases h
  | succ _ ih => exact alternativeBlock_safe hU hP htime (fun old hold => ih hold) hb

theorem addNewBlock_safe (fuel : ℕ) (hb : P b) :
    Safe env U P clock Prod.fst (addNewBlock env now fuel b) := by
  rintro n n' ⟨added,bvc⟩ hg h hf
  rcases addNewBlock_cases h with ⟨-,rfl⟩ | ⟨-,-,hh⟩ | ⟨-,-,hp⟩
  · exact hg
  · exact handleAlternativeBlock_safe hU hP htime fuel hb n n' _ hg hh hf
  · exact (pushPoolBlock_kept hU hP htime hg hb hp (fun hff => hf hff b hb)).1.good

end Handler

theorem setPool_good (hg : Good env U P clock n) {p : Pool} (hp : PoolKnown env U p)
    : Good env U P clock (n.setPool p) :=
  ⟨hg.built,hp,hg.alternatives⟩

theorem handleIncomingTransaction_good (hg : Good env U P clock n) {tx : Transaction} (htx : tx ∈ U)
    {kb : Bool} {res : Bool × TxVerificationContext}
    (h : handleIncomingTransaction env now tx kb n = .ok res n') : Good env U P clock n' := by
  unfold handleIncomingTransaction at h
  rw [get_bind] at h
  dsimp only at h
  split_ifs at h with hsem hcn hp
  · cases h
    exact hg
  · cases h
    exact hg
  · cases h
    exact hg
  · obtain ⟨⟨⟨_,_⟩,_⟩,_,hr,h⟩ := bind_ok.mp h
    obtain ⟨hadd,rfl⟩ := (reading_ok _ _ _ _).mp hr
    cases h
    exact setPool_good hg (addTx_known hg.pool ⟨rfl,htx,by simpa using hsem⟩ hadd)

theorem removeExpiredTransactions_good (hg : Good env U P clock n) :
    Good env U P clock (n.setPool (removeExpiredTransactions env now n.pool)) := by
  refine setPool_good hg ⟨?_,removeExpiredTransactions_tidy hg.pool.tidy hg.pool.images⟩
  rintro x ⟨d,hd,rfl⟩
  have hmem := mem_of_mem_removeExpired env now n.pool.transactions
    (forgetDeleted env now n.pool) hd
  exact hg.pool.known _ ⟨d,hmem,rfl⟩

/-- The states a node can reach by calls at times up to the given one. The
blocks of the run meet `P` and its transactions are in `U`; in a strict run
every block was accepted. -/
inductive Run (env : Env) (U : Set Transaction) (P : Block → Prop) (strict : Prop) :
    UInt64 → Node → Prop
  | genesis {clock now : UInt64} {bvc : BlockVerificationContext} {n : Node} (time : now ≤ clock)
      (allowed : P env.currency.genesisBlock)
      (push : pushPoolBlock env now env.currency.genesisBlock Node.empty = .ok (true, bvc) n) :
      Run env U P strict clock n
  | block {before clock now : UInt64} {n n' : Node} {b : Block} {fuel : ℕ} {added : Bool}
      {bvc : BlockVerificationContext} (run : Run env U P strict before n)
      (later : before ≤ clock) (time : now ≤ clock) (allowed : P b)
      (call : addNewBlock env now fuel b n = .ok (added, bvc) n')
      (accepted : strict → added = true) : Run env U P strict clock n'
  | transaction {before clock now : UInt64} {n n' : Node} {tx : Transaction}
      {keptByBlock : Bool} {result : Bool × TxVerificationContext}
      (run : Run env U P strict before n) (later : before ≤ clock) (time : now ≤ clock)
      (allowed : tx ∈ U)
      (call : handleIncomingTransaction env now tx keptByBlock n = .ok result n') :
      Run env U P strict clock n'
  | idle {before clock now : UInt64} {n : Node} (run : Run env U P strict before n)
      (later : before ≤ clock) (time : now ≤ clock) :
      Run env U P strict clock (n.setPool (removeExpiredTransactions env now n.pool))

theorem empty_good : Good env U P clock Node.empty where
  built := .empty
  pool := by
    refine ⟨?_,tidy_empty⟩
    rintro x ⟨d,hd,-⟩
    cases hd
  alternatives := by
    intro id e h
    simp [Node.empty] at h

theorem Run.good (hU : TxInj env U) (hP : Countable U P) (hf : ¬ strict → ∀ b, P b → Fits env U b)
    (h : Run env U P strict clock n) : Good env U P clock n := by
  induction h with
  | genesis time allowed push =>
    exact (pushPoolBlock_extends hU hP time empty_good allowed push).1.good
  | block _ later time allowed call _ ih =>
    refine addNewBlock_safe hU hP time _ allowed _ _ _ (ih.later later) call ?_
    intro hff
    exact hf fun hs => by simp_all
  | transaction _ later _ allowed call ih =>
    exact handleIncomingTransaction_good (ih.later later) allowed call
  | idle _ later _ ih => exact removeExpiredTransactions_good (ih.later later)

def Counted (U : Set Transaction) (b : Block) : Prop :=
  b.baseTransaction ∈ U ∧ b.transactionHashes.length < 2 ^ 16

def Sized (env : Env) (U : Set Transaction) (b : Block) : Prop := Counted U b ∧ Fits env U b

def AcceptedRun (env : Env) (U : Set Transaction) : UInt64 → Node → Prop :=
  Run env U (Counted U) True

def SizedRun (env : Env) (U : Set Transaction) : UInt64 → Node → Prop :=
  Run env U (Sized env U) False

theorem good_of_acceptedRun (hU : TxInj env U) (h : AcceptedRun env U clock n)
    : Good env U (Counted U) clock n :=
  Run.good hU (fun _ hb => hb) (fun hnot => absurd trivial hnot) h

theorem good_of_sizedRun (hU : TxInj env U) (h : SizedRun env U clock n)
    : Good env U (Sized env U) clock n :=
  Run.good hU (fun _ hb => hb.1) (fun _ _ hb => hb.2) h

/-- Nodes whose chains have the same height and last block agree on the whole
chain with its tables, whatever calls led there. -/
theorem chains_agree (hst : Storable env U) (hinj : BlockInj env P) (hP : Countable U P)
    (hf : ¬ strict → ∀ b, P b → Fits env U b) (h : Run env U P strict clock n)
    (h' : Run env U P strict now n') (hl : n.main.blocks.length = n'.main.blocks.length)
    (ht : n.main.getTailId = n'.main.getTailId) : n.main = n'.main := by
  have hU := hst.injective
  replace h := (h.good hU hP hf).built
  replace h' := (h'.good hU hP hf).built
  generalize n.main = m at *
  generalize n'.main = m' at *
  induction h generalizing m' with
  | empty => cases h' with
    | empty => rfl
    | push => simp [accepted_blocks, MainChain.empty] at hl
  | push _ _ hb hof hac ih => cases h' with
    | empty => simp [accepted_blocks, MainChain.empty] at hl
    | push h' _ hb' hof' hac' =>
      -- equal blocks name equal ones below
      simp only [MainChain.getTailId, accepted_blocks, accepted_blockIndex hac.header.fresh,
        accepted_blockIndex hac'.header.fresh] at ht hl
      cases hinj hb hb' (by simpa using ht)
      cases ih _ h' (by simpa using hl) (hac.header.previous.symm.trans hac'.header.previous)
      have hh := hof.hashes.symm.trans hof'.hashes
      cases List.ext_getElem (by simpa using congrArg List.length hh) fun i hi hi' =>
        hU (hof.known _ (List.getElem_mem hi)) (hof'.known _ (List.getElem_mem hi'))
          (by simpa [hi, hi'] using congrArg (·[i]?) hh)
      cases hac.header.difficulty_eq.trans hac'.header.difficulty_eq.symm
      cases hac.reward.symm.trans hac'.reward
      rfl

theorem fits_of_no_transactions (hb : b.transactionHashes = [])
    (hs : checkCumulativeBlockSize env (blockSize b []) (getBlockHeight b) = true) :
    Fits env U b := by
  intro txs _ hhsh
  rw [hb, List.map_eq_nil_iff] at hhsh
  rwa [hhsh]

/-- Operations with a single scalar, for which every signature over keys
that decode is valid. The key `0` does not decode. -/
def sampleOps : CurveOps where
  Point := ℕ
  geFromBytes := fun bytes => if bytes = 0 then none else some bytes
  geToBytes := id
  geDoubleScalarmultBase := fun a p b => a * p + b
  geDoubleScalarmultPrecomp := fun a p b q => a * p + b * q
  hashToEc := id
  hashToScalar := fun _ _ _ => 0
  ringHashToScalar := fun _ _ => 0
  scalarOrder := 1
  scalarOrder_pos := Nat.one_pos

theorem base_signed (ht : ℕ) : ([[]] : List (List Signature)).map List.length =
    ([.base ht] : List TransactionInput).map getSignaturesCount := rfl

theorem genesisSpend_signed : ([[]] : List (List Signature)).map List.length =
    ([.multisignature 5297660827636 0 0] : List TransactionInput).map getSignaturesCount := rfl

theorem noCheckpoints_increasing :
    (([] : List (ℕ × Hash)).map Prod.fst).Pairwise (· < ·) := List.Pairwise.nil

def mint (label : UInt8) (height : ℕ) (amount : UInt64) (target : TransactionOutputTarget) :
    Transaction where
  version := 1
  unlockTime := UInt64.ofNat height + 1
  inputs := [.base height]
  outputs := [⟨amount, target⟩]
  extra := [label]
  signatures := [[]]
  signed := base_signed height

def mine (nonce : UInt32) (previousBlockHash : Hash) (timestamp : UInt64) (base : Transaction)
    (transactionHashes : List Hash) : Block where
  majorVersion := 1
  minorVersion := 0
  timestamp := timestamp
  previousBlockHash := previousBlockHash
  nonce := nonce
  baseTransaction := base
  transactionHashes := transactionHashes

def sampleCoinbase : Transaction := mint 1 0 5297660827636 (.multisignature [] 0)

/-- The configured currency, except that coins can be spent after one block.
Transactions are told apart by the first byte of their extra field, blocks
by their nonce. -/
def sampleEnv : Env where
  ops := sampleOps
  getObjectHash := fun tx => (tx.extra.headD 0).toNat
  getPrefixHash := fun _ => 0
  getBlockHash := fun b => b.nonce.toNat
  getPaymentId := fun _ => none
  checkProofOfWork := fun _ _ => true
  currency := { Currency.configured 0 (mine 1 nullHash 0 sampleCoinbase []) with
    minedMoneyUnlockWindow := 1 }
  checkpoints := ⟨[], noCheckpoints_increasing⟩

def sampleNode : Node :=
  left (pushPoolBlock sampleEnv 0 sampleEnv.currency.genesisBlock Node.empty)

theorem sampleNode_run (hP : P sampleEnv.currency.genesisBlock) :
    Run sampleEnv U P strict 0 sampleNode :=
  .genesis UInt64.le_rfl hP (eq_ok_of_value (show _ = some (true, .added) from by decide))

theorem sampleNode_sized (hU : sampleCoinbase ∈ U) : SizedRun sampleEnv U 0 sampleNode :=
  sampleNode_run ⟨⟨hU,by decide⟩,fits_of_no_transactions rfl (by decide)⟩

def rewardOn (n : Node) : UInt64 :=
  ((sampleEnv.currency.getBlockReward 0 0 (alreadyGenerated n.main.blocks) 0).map Prod.fst).getD 0

def blockOn (n : Node) (nonce : ℕ) (parent height : ℕ) (timestamp : UInt64) : Block :=
  mine (UInt32.ofNat nonce) parent timestamp
    { mint (UInt8.ofNat nonce) height (rewardOn n) (.key 1) with
      outputs := [⟨rewardOn n - 1, .key 1⟩, ⟨1, .key 1⟩] } []

def firstBlock : Block := blockOn sampleNode 2 1 1 1000

def forkBlock : Block := blockOn sampleNode 3 1 1 1000

def sampleFirst : Node := left (addNewBlock sampleEnv 10000 1 firstBlock sampleNode)

def sampleFork : Node := left (addNewBlock sampleEnv 10000 1 forkBlock sampleFirst)

def overtakingBlock : Block := blockOn sampleFirst 4 3 2 1111

def sampleSwitched : Node := left (addNewBlock sampleEnv 10000 1 overtakingBlock sampleFork)

def sampleBranch : Node := left (addNewBlock sampleEnv 10000 1 forkBlock sampleNode)

def sampleDirect : Node := left (addNewBlock sampleEnv 10000 1 overtakingBlock sampleBranch)

def ForkBlocks (b : Block) : Prop :=
  b = sampleEnv.currency.genesisBlock ∨ b = firstBlock ∨ b = forkBlock ∨ b = overtakingBlock

theorem forkBlocks_injective : Set.InjOn sampleEnv.getBlockHash {b | ForkBlocks b} := by
  rintro x (rfl | rfl | rfl | rfl) y (rfl | rfl | rfl | rfl) heq
  all_goals first | rfl | exact absurd heq (by decide)

def forkTransactions : Set Transaction := {tx | ∃ b, ForkBlocks b ∧ b.baseTransaction = tx}

theorem forkTransactions_storable : Storable sampleEnv forkTransactions where
  injective := by
    rintro x ⟨_,rfl | rfl | rfl | rfl,rfl⟩ y ⟨_,rfl | rfl | rfl | rfl,rfl⟩ heq
    all_goals first | rfl | exact absurd heq (by decide)
  amounts := by
    rintro x ⟨_,rfl | rfl | rfl | rfl,rfl⟩
    all_goals decide
  images := by
    rintro x ⟨_,rfl | rfl | rfl | rfl,rfl⟩
    all_goals decide

theorem forkBlocks_sized (b : Block) (hb : ForkBlocks b) :
    Sized sampleEnv forkTransactions b := by
  refine ⟨⟨⟨b,hb,rfl⟩,?_⟩,fits_of_no_transactions ?_ ?_⟩ <;>
    rcases hb with rfl | rfl | rfl | rfl <;> decide

theorem sampleFork_run (hP : ∀ b, ForkBlocks b → P b) :
    Run sampleEnv U P strict 10000 sampleFork := by
  have hfst : addNewBlock sampleEnv 10000 1 firstBlock sampleNode =
      .ok (true, .added) sampleFirst := eq_ok_of_value (by decide)
  have hfork : addNewBlock sampleEnv 10000 1 forkBlock sampleFirst =
      .ok (true, .initial) sampleFork := eq_ok_of_value (by decide)
  exact .block (.block (sampleNode_run (hP _ (.inl rfl))) (by decide) UInt64.le_rfl
      (hP _ (.inr (.inl rfl))) hfst fun _ => rfl) UInt64.le_rfl UInt64.le_rfl
    (hP _ (.inr (.inr (.inl rfl)))) hfork fun _ => rfl

theorem sampleSwitched_run (hP : ∀ b, ForkBlocks b → P b) :
    Run sampleEnv U P strict 10000 sampleSwitched := by
  have hc : addNewBlock sampleEnv 10000 1 overtakingBlock sampleFork =
      .ok (true, switched true) sampleSwitched := eq_ok_of_value (by decide +kernel)
  exact .block (sampleFork_run hP) UInt64.le_rfl UInt64.le_rfl
    (hP _ (.inr (.inr (.inr rfl)))) hc fun _ => rfl

theorem chains_agree_sample : sampleSwitched.main = sampleDirect.main := by
  have hbr : addNewBlock sampleEnv 10000 1 forkBlock sampleNode = .ok (true, .added) sampleBranch :=
    eq_ok_of_value (by decide)
  have hdir : addNewBlock sampleEnv 10000 1 overtakingBlock sampleBranch =
      .ok (true, .added) sampleDirect := eq_ok_of_value (by decide)
  have hrun : Run sampleEnv forkTransactions ForkBlocks True 10000 sampleDirect :=
    .block (.block (sampleNode_run (.inl rfl)) (by decide) UInt64.le_rfl (.inr (.inr (.inl rfl)))
      hbr fun _ => rfl) UInt64.le_rfl UInt64.le_rfl (.inr (.inr (.inr rfl))) hdir fun _ => rfl
  exact chains_agree forkTransactions_storable forkBlocks_injective
    (fun b hb => (forkBlocks_sized b hb).1) (absurd trivial)
    (sampleSwitched_run fun _ hb => hb) hrun (by decide +kernel) (by decide +kernel)

end Orbis.ChainRun
