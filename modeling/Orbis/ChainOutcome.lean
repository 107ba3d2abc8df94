import Orbis.ChainNode

/-!
# What the calls on the node can do

One lemma for each call lists every way it can return, with the calls made
on the way and the state it leaves. The later modules argue from these
lists and not from the code of the calls.
-/

set_option autoImplicit false

namespace Orbis.ChainOutcome

open FaultState ChainTypes ChainSemantic ChainBlock ChainNode

variable (env : Env) (now : UInt64) {bvc : BlockVerificationContext} {b : Block} {id : Hash}
  {entry e : BlockEntry}

variable {added isCheckpoint accepted : Bool} {switch : AltChain → Bool → EStateM Fault Node Bool}
  {fuel : ℕ}

variable {env now} in
theorem pushPoolBlock_cases {n n' : Node} (h : pushPoolBlock env now b n = .ok (added, bvc) n') :
    (added = false ∧ loadTransactions env now b.transactionHashes [] n = .ok none n') ∨
    ∃ txs u m, loadTransactions env now b.transactionHashes [] n = .ok (some txs) u ∧
      pushBlock env now b txs u.main = .ok (added, bvc) m ∧
      (added = true ∧ n' = updateNextCumulativeSizeLimit env (u.setMain m) ∨
        added = false ∧ saveTransactions env now txs (u.setMain m) = .ok ⟨⟩ n') := by
  simp only [pushPoolBlock, bind_ok] at h
  obtain ⟨ld,u,hl,h⟩ := h
  cases ld with
  | none =>
    cases h
    exact .inl ⟨rfl,hl⟩
  | some txs =>
    simp only [bind_ok] at h
    obtain ⟨⟨added',_⟩,_,hm,h⟩ := h
    obtain ⟨m,hp,rfl⟩ := (within_ok _ _ _ _ _ _).mp hm
    cases added' with
    | true =>
      simp only [if_true] at h
      rw [modify_bind] at h
      cases h
      exact .inr ⟨txs,u,m,hl,hp,.inl ⟨rfl,rfl⟩⟩
    | false =>
      simp only [Bool.false_eq_true, if_false, bind_ok] at h
      obtain ⟨_,_,hs,h⟩ := h
      cases h
      exact .inr ⟨txs,u,m,hl,hp,.inr ⟨rfl,hs⟩⟩

variable {env now} in
theorem popBlock_cases {hash : Hash} {n n' : Node} {blk : BlockEntry}
    (hl : n.main.blocks.getLast? = some blk) (h : popBlock env now hash n = .ok ⟨⟩ n') :
    ∃ u m, saveTransactions env now ((blk.transactions.drop 1).map TransactionEntry.tx) n =
        .ok ⟨⟩ u ∧ popStoredBlock env hash u.main = .ok ⟨⟩ m ∧ n' = u.setMain m := by
  unfold popBlock at h
  rw [get_bind] at h
  simp only [hl, bind_ok] at h
  obtain ⟨_,u,hs,hpop⟩ := h
  obtain ⟨m,hm,rfl⟩ := (within_ok _ _ _ _ _ _).mp hpop
  exact ⟨u,m,hs,hm,rfl⟩

/-- `switchToAlternativeBlockchain` over the way a failed change is taken
back. -/
def switchWith (restore : List Block → ℕ → EStateM Fault Node Bool)
    (readd : Block → EStateM Fault Node (Bool × BlockVerificationContext))
    (alt : AltChain) (discardDisconnectedChain : Bool) : EStateM Fault Node Bool := do
  match alt with
  | [] => pure false
  | (_, front) :: _ =>
    let splitHeight := front.height
    let n ← get
    if !(n.main.blocks.length > splitHeight) then pure false
    else
      let disconnected ← disconnect env now (n.main.blocks.length - splitHeight) []
      if splitHeight = 0 then throw .outOfRange
      let refused ← connect env now alt
      if refused ≠ [] then
        let _ ← restore disconnected splitHeight
        modify (eraseAlternatives env refused)
        pure false
      else
        let readded ← if discardDisconnectedChain then pure true
          else readdAll readd disconnected
        if !readded then
          let _ ← restore disconnected splitHeight
          pure false
        else
          modify (eraseAlternatives env alt)
          pure true

theorem switchWith_rollback
    {readd : Handler} {alt : AltChain}
    {dc : Bool} : switchWith env now (rollbackBlockchainSwitching env now) readd alt dc =
      switchToAlternativeBlockchain env now readd alt dc := rfl

inductive EndWith (restore : List Block → ℕ → EStateM Fault Node Bool)
    (readd : Block → EStateM Fault Node (Bool × BlockVerificationContext))
    (alt : AltChain) (height : ℕ) (disconnected : List Block) (v : Node) :
    AltChain → Bool → Bool → Node → Prop
  | refused {tail : AltChain} {discard restored : Bool} {w : Node} (htail : tail ≠ [])
      (rollback : restore disconnected height v = .ok restored w) :
      EndWith restore readd alt height disconnected v tail discard false
        (eraseAlternatives env tail w)
  | discarded : EndWith restore readd alt height disconnected v [] true true
      (eraseAlternatives env alt v)
  | exchanged {w : Node} (readded : readdAll readd disconnected v = .ok true w) :
      EndWith restore readd alt height disconnected v [] false true (eraseAlternatives env alt w)
  | unstored {w n' : Node} {restored : Bool}
      (readded : readdAll readd disconnected v = .ok false w)
      (rollback : restore disconnected height w = .ok restored n') :
      EndWith restore readd alt height disconnected v [] false false n'

variable {env now}

section Switch

variable {readd : Handler}
  {alt : AltChain} {dc suc : Bool} {n n' : Node}

theorem switchWith_cases {restore : List Block → ℕ → EStateM Fault Node Bool}
    (h : switchWith env now restore readd alt dc n = .ok suc n') : (suc = false ∧ n' = n ∧
      ∀ front, alt.head? = some front → n.main.blocks.length ≤ front.2.height) ∨
    ∃ front rest, alt = front :: rest ∧ front.2.height ≠ 0 ∧
      front.2.height < n.main.blocks.length ∧ ∃ dis u refused v,
        disconnect env now (n.main.blocks.length - front.2.height) [] n = .ok dis u ∧
        connect env now alt u = .ok refused v ∧
        EndWith env restore readd alt front.2.height dis v refused dc suc n' := by
  cases alt with
  | nil =>
    cases h
    refine .inl ⟨rfl,rfl,?_⟩
    intro front hfrt
    cases hfrt
  | cons front rest =>
    simp only [switchWith] at h
    rw [get_bind] at h
    by_cases hlen : n.main.blocks.length > front.2.height
    · simp only [hlen, decide_true, Bool.not_true, Bool.false_eq_true, if_false] at h
      obtain ⟨dis,u,hdis,h⟩ := bind_ok.mp h
      by_cases hz : front.2.height = 0
      · rw [if_pos hz] at h
        cases h
      · rw [if_neg hz] at h
        obtain ⟨refused,v,hcon,h⟩ := bind_ok.mp h
        refine .inr ⟨front,rest,rfl,hz,hlen,dis,u,refused,v,hdis, hcon,?_⟩
        by_cases href : refused = []
        · subst href
          simp only [ne_eq, not_true_eq_false, if_false] at h
          cases dc with
          | true =>
            cases h
            exact .discarded
          | false =>
            obtain ⟨readded,w,hre,h⟩ := bind_ok.mp h
            cases readded with
            | true =>
              cases h
              exact .exchanged hre
            | false =>
              obtain ⟨restored,_,hr,h⟩ := bind_ok.mp h
              cases h
              exact .unstored hre hr
        · simp only [ne_eq, href, not_false_eq_true, if_true] at h
          obtain ⟨restored,w,hr,h⟩ := bind_ok.mp h
          cases h
          exact .refused href hr
    · simp only [hlen, decide_false, Bool.not_false, if_true] at h
      cases h
      refine .inl ⟨rfl,rfl,?_⟩
      intro o hoth
      cases hoth
      exact Nat.not_lt.mp hlen

end Switch

variable (env) in
def storeWith (switch : AltChain → Bool → EStateM Fault Node Bool) (id : Hash) (alt : AltChain)
    (entry : BlockEntry) (isCheckpoint : Bool) :
    EStateM Fault Node (Bool × BlockVerificationContext) := do
  modify (insertAlternative env id entry)
  let n ← get
  if isCheckpoint then
    let success ← switch (alt ++ [(id, entry)]) true
    pure (success, switched success)
  else
    match n.main.blocks.getLast? with
    | none => throw .undefined
    | some last =>
      if last.cumulativeDifficulty < entry.cumulativeDifficulty then
        let success ← switch (alt ++ [(id, entry)]) false
        pure (success, switched success)
      else pure (true, .initial)

theorem storeWith_cases {alt : AltChain} {n n' : Node}
    (h : storeWith env switch id alt e isCheckpoint n = .ok (accepted, bvc) n') :
    (accepted = true ∧ bvc = .initial ∧ isCheckpoint = false ∧
      n' = insertAlternative env id e n ∧ ∃ last, n.main.blocks.getLast? = some last ∧
        ¬ last.cumulativeDifficulty < e.cumulativeDifficulty) ∨
    (switch (alt ++ [(id, e)]) isCheckpoint (insertAlternative env id e n) =
        .ok accepted n' ∧ bvc = switched accepted ∧
      (isCheckpoint = false → ∃ last, n.main.blocks.getLast? = some last ∧
        last.cumulativeDifficulty < e.cumulativeDifficulty)) := by
  unfold storeWith at h
  rw [modify_bind, get_bind] at h
  cases isCheckpoint with
  | true =>
    obtain ⟨suc,u,hsw,h⟩ := bind_ok.mp h
    cases h
    exact .inr ⟨hsw,rfl,fun hff => Bool.noConfusion hff⟩
  | false =>
    have hma : (insertAlternative env id e n).main = n.main := rfl
    simp only [Bool.false_eq_true, if_false, hma] at h
    cases hl : n.main.blocks.getLast? with
    | none =>
      rw [hl] at h
      cases h
    | some last =>
      simp only [hl] at h
      by_cases hm : last.cumulativeDifficulty < e.cumulativeDifficulty
      · rw [if_pos hm] at h
        obtain ⟨suc,u,hsw,h⟩ := bind_ok.mp h
        cases h
        exact .inr ⟨hsw,rfl,fun _ => ⟨last,rfl,hm⟩⟩
      · rw [if_neg hm] at h
        cases h
        exact .inl ⟨rfl,rfl,rfl,rfl,last,rfl,hm⟩

variable (env) in
def blockWith (switch : AltChain → Bool → EStateM Fault Node Bool) (b : Block) (id : Hash) :
    EStateM Fault Node (Bool × BlockVerificationContext) := do
  match ← reading (examineAlternative env b id) with
  | .refuse bvc => pure (false, bvc)
  | .orphan => pure (true, { BlockVerificationContext.initial with markedAsOrphaned := true })
  | .store alt entry isCheckpoint => storeWith env switch id alt entry isCheckpoint

theorem blockWith_switch {readd : Handler} :
    blockWith env (switchToAlternativeBlockchain env now readd) b id =
      alternativeBlock env now readd b id := rfl

theorem blockWith_cases {n n' : Node} (h : blockWith env switch b id n = .ok (accepted, bvc) n') :
    (accepted = false ∧ n' = n ∧ examineAlternative env b id n = .ok (.refuse bvc)) ∨
    (accepted = true ∧ n' = n ∧ examineAlternative env b id n = .ok .orphan ∧
      bvc.switchedToAltChain = false) ∨ ∃ alt e isCheckpoint,
      examineAlternative env b id n = .ok (.store alt e isCheckpoint) ∧
      storeWith env switch id alt e isCheckpoint n = .ok (accepted, bvc) n' := by
  simp only [blockWith, bind_ok, reading_ok] at h
  obtain ⟨verdict,_,⟨hv,rfl⟩,h⟩ := h
  cases verdict with
  | refuse _ =>
    cases h
    exact .inl ⟨rfl,rfl,hv⟩
  | orphan =>
    cases h
    exact .inr (.inl ⟨rfl,rfl,hv,rfl⟩)
  | store alt e isCheckpoint =>
    exact .inr (.inr ⟨alt,e,isCheckpoint,hv,h⟩)

structure Examined (env : Env) (n : Node) (b : Block) (id : Hash) (alt : AltChain)
    (parent : ℕ × UInt64 × List UInt64) : Prop where
  height : getBlockHeight b ≠ 0
  allowed : env.checkpoints.isAlternativeBlockAllowed n.main.blocks.length (getBlockHeight b)
  size : ∃ size, getBlockCumulativeSize b n = .ok size ∧
    checkCumulativeBlockSize env size (getBlockHeight b) = true
  known : b.previousBlockHash ∈ n.alternativeChains ∨ b.previousBlockHash ∈ n.main.blockIndex
  chain : alternativeChain n.alternativeChains n.alternativeChains.keys.card b.previousBlockHash =
    .ok alt
  root : alternativeParent env n alt (n.main.blockIndex.idxOf b.previousBlockHash) =
    .ok (some parent)
  timestamp : checkBlockTimestamp env parent.2.2 b = true
  checkpoint : env.checkpoints.checkBlock (parent.1 + 1) id = true
  difficulty : getNextDifficultyForAlternativeChain env n.main.blocks (alt.map Prod.snd)
    (parent.1 + 1) ≠ 0
  work : env.checkProofOfWork b (getNextDifficultyForAlternativeChain env n.main.blocks
    (alt.map Prod.snd) (parent.1 + 1)) = true
  miner : prevalidateMinerTransaction env b (parent.1 + 1) = true
  new : id ∉ n.alternativeChains

def storedEntry (env : Env) (n : Node) (b : Block) (alt : AltChain)
    (parent : ℕ × UInt64 × List UInt64) : BlockEntry :=
  alternativeEntry b (parent.1 + 1) (parent.2.1 + getNextDifficultyForAlternativeChain env
    n.main.blocks (alt.map Prod.snd) (parent.1 + 1))

theorem examineChild_store {n : Node} {alt alt' : AltChain} {par : ℕ × UInt64 × List UInt64} :
    examineChild env n b id alt par = .store alt' e isCheckpoint ↔
      (checkBlockTimestamp env par.2.2 b = true ∧ env.checkpoints.checkBlock (par.1 + 1) id = true ∧
        getNextDifficultyForAlternativeChain env n.main.blocks (alt.map Prod.snd) (par.1 + 1) ≠ 0 ∧
        env.checkProofOfWork b (getNextDifficultyForAlternativeChain env n.main.blocks
          (alt.map Prod.snd) (par.1 + 1)) = true ∧
        prevalidateMinerTransaction env b (par.1 + 1) = true ∧ id ∉ n.alternativeChains) ∧
      alt' = alt ∧ e = storedEntry env n b alt par ∧
      isCheckpoint = env.checkpoints.isCheckpoint (par.1 + 1) := by
  unfold examineChild storedEntry
  dsimp only
  split_ifs with h1 h2 h3 h4 h5 h6
  · simp_all
  · simp_all
  · simp_all
  · simp_all
  · simp_all
  · simp_all
  · simp only [Bool.not_eq_true, Bool.not_eq_false'] at h1 h2 h4 h5
    rw [Verdict.store.injEq]
    exact ⟨fun heq => ⟨⟨h1,h2,h3,h4,h5,h6⟩,heq.1.symm,heq.2.1.symm,heq.2.2.symm⟩,
      fun heq => ⟨heq.2.1.symm,heq.2.2.1.symm,heq.2.2.2.symm⟩⟩

theorem examineAlternative_store {n : Node} {alt : AltChain}
    (h : examineAlternative env b id n = .ok (.store alt e isCheckpoint)) :
    ∃ par, Examined env n b id alt par ∧ e = storedEntry env n b alt par ∧
      isCheckpoint = env.checkpoints.isCheckpoint (par.1 + 1) := by
  unfold examineAlternative at h
  dsimp only at h
  by_cases hht : getBlockHeight b = 0
  · rw [if_pos hht] at h
    cases h
  rw [if_neg hht] at h
  cases hal : env.checkpoints.isAlternativeBlockAllowed n.main.blocks.length (getBlockHeight b) with
  | false =>
    rw [hal] at h
    cases h
  | true =>
    simp only [hal, Bool.not_true, Bool.false_eq_true, if_false] at h
    obtain ⟨size,hs,h⟩ := except_bind_ok.mp h
    split_ifs at h with hfit hunk
    · cases h
    · cases h
    · obtain ⟨_,hcn,h⟩ := except_bind_ok.mp h
      obtain ⟨par,hpar,h⟩ := except_bind_ok.mp h
      cases par with
      | none => cases h
      | some par =>
        obtain ⟨⟨ht,hcp,hd,hw,hm,hnew⟩,rfl,hent,hf⟩ := examineChild_store.mp (Except.ok.inj h)
        refine ⟨par,⟨hht,hal,⟨size,hs,by simpa using hfit⟩,?_,hcn,
          hpar,ht,hcp,hd,hw,hm,hnew⟩,hent,hf⟩
        by_contra hn
        rw [not_or] at hn
        exact hunk hn

theorem mem_alternativeChain {alts : Finmap (fun _ : Hash => BlockEntry)} {alt : AltChain}
    (h : alternativeChain alts fuel id = .ok alt) : ∀ e ∈ alt, alts.lookup e.1 = some e.2 := by
  induction fuel generalizing id alt with
  | zero =>
    unfold alternativeChain at h
    cases hl : alts.lookup id with
    | none =>
      rw [hl] at h
      cases h
      simp
    | some _ =>
      rw [hl] at h
      cases h
  | succ _ ih =>
    unfold alternativeChain at h
    cases hl : alts.lookup id with
    | none =>
      rw [hl] at h
      cases h
      simp
    | some _ =>
      simp only [hl] at h
      obtain ⟨_,hlw,hla⟩ := except_bind_ok.mp h
      cases hla
      intro o hoth
      rcases List.mem_append.mp hoth with hold | hnew
      · exact ih hlw o hold
      · rw [List.mem_singleton.mp hnew]
        exact hl

theorem addNewBlock_cases {n n' : Node} (h : addNewBlock env now fuel b n = .ok (added, bvc) n') :
    (added = false ∧ n' = n) ∨
    (haveBlock (env.getBlockHash b) n = false ∧ b.previousBlockHash ≠ n.main.getTailId ∧
      handleAlternativeBlock env now fuel b (env.getBlockHash b) n = .ok (added, bvc) n') ∨
    (haveBlock (env.getBlockHash b) n = false ∧ b.previousBlockHash = n.main.getTailId ∧
      pushPoolBlock env now b n = .ok (added, bvc) n') := by
  unfold addNewBlock at h
  rw [get_bind] at h
  dsimp only at h
  split_ifs at h with hver hh ht
  · cases h
    exact .inl ⟨rfl,rfl⟩
  · cases h
    exact .inl ⟨rfl,rfl⟩
  · exact .inr (.inl ⟨by simpa using hh,ht,h⟩)
  · exact .inr (.inr ⟨by simpa using hh,not_not.mp ht,h⟩)

end Orbis.ChainOutcome
