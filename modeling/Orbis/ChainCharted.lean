import Orbis.ChainTrace

/-!
# The alternative blocks and the main chain

Every alternative block was stored on a traced chain, which its hash
determines. So whenever an alternative chain hangs on the main chain, the
main chain below the fork together with the alternative chain is traced: the
heights go up by one, and the work of an alternative block is what it will
have once the chain is switched. All calls that return keep this, whatever
happens to the tables.
-/

set_option autoImplicit false

namespace Orbis.ChainCharted

open FaultState ChainTypes ChainSemantic ChainBlock ChainPool ChainSound ChainNode
open ChainOutcome ChainUpheld ChainRun ChainWindow ChainTrace

structure Charted (env : Env) (P : Block → Prop) (n : Node) : Prop where
  main : MainTraced env P n.main
  alternatives : ∀ id e, n.alternativeChains.lookup id = some e →
    id = env.getBlockHash e.bl ∧ ∃ lower, lower ≠ [] ∧ Traced env P (lower ++ [e])

variable {env : Env} {P : Block → Prop} {fuel : ℕ}

theorem alternativeChain_cases {alts : Finmap (fun _ : Hash => BlockEntry)} {id : Hash}
    {alt : AltChain} (h : alternativeChain alts fuel id = .ok alt) :
    (alt = [] ∧ alts.lookup id = none) ∨
    ∃ lower e smaller, fuel = smaller + 1 ∧ alt = lower ++ [(id, e)] ∧ alts.lookup id = some e ∧
      alternativeChain alts smaller e.bl.previousBlockHash = .ok lower := by
  unfold alternativeChain at h
  cases hl : alts.lookup id with
  | none =>
    rw [hl] at h
    cases h
    exact .inl ⟨rfl,rfl⟩
  | some e =>
    cases fuel with
    | zero =>
      rw [hl] at h
      cases h
    | succ fuel =>
      simp only [hl] at h
      obtain ⟨lower,hlw,hla⟩ := except_bind_ok.mp h
      cases hla
      exact .inr ⟨lower,e,fuel,rfl,rfl,rfl,hlw⟩

def Hangs (env : Env) (blocks : List BlockEntry) (alt : AltChain) : Prop :=
  ∀ front, alt.head? = some front → front.2.height ≠ 0 ∧ ∃ root,
    blocks[front.2.height - 1]? = some root ∧
      env.getBlockHash root.bl = front.2.bl.previousBlockHash

theorem Hangs.lower {bs : List BlockEntry} {lower : AltChain} {e : Hash × BlockEntry}
    (h : Hangs env bs (lower ++ [e])) : Hangs env bs lower := by
  intro front hfrt
  apply h front
  cases lower with
  | nil => cases hfrt
  | cons _ _ => exact hfrt

theorem take_of_getElem {bs : List BlockEntry} {k : ℕ} {root : BlockEntry}
    (hr : bs[k]? = some root) : bs.take (k + 1) = bs.take k ++ [root] := by
  rw [List.take_add_one, hr]
  rfl

theorem Charted.joined_traced (hinj : BlockInj env P) {n : Node} (hn : Charted env P n) {id : Hash}
    {alt : AltChain} (hcn : alternativeChain n.alternativeChains fuel id = .ok alt) (hne : alt ≠ [])
    (ha : Hangs env n.main.blocks alt) (hgt : ℕ) :
    Traced env P (joined n.main.blocks (alt.map Prod.snd) hgt) ∧
      tailHash env (joined n.main.blocks (alt.map Prod.snd) hgt) = id := by
  induction fuel generalizing id alt with
  | zero =>
    rcases alternativeChain_cases hcn with ⟨hnil,-⟩ | ⟨lower,e,smaller,hf,-⟩
    · exact absurd hnil hne
    · cases hf
  | succ _ ih =>
    rcases alternativeChain_cases hcn with ⟨hnil,-⟩ | ⟨lower,e,smaller,hf,rfl,hl,hlw⟩
    · exact absurd hnil hne
    · obtain rfl := Nat.succ.inj hf
      obtain ⟨hid,_,hbel,htr⟩ := hn.alternatives id e hl
      unfold joined at ih ⊢
      rw [List.map_append, List.map_singleton]
      cases lower with
      | nil =>
        obtain ⟨hpos,_,hr,hh⟩ := ha (id, e) rfl
        have ht := take_of_getElem hr
        rw [Nat.sub_add_cancel (Nat.pos_of_ne_zero hpos)] at ht
        refine ⟨?_,(tailHash_append e).trans hid.symm⟩
        apply htr.onto hinj hbel (hn.main.traced.take e.height)
        · rw [ht]
          simp
        · rw [ht, tailHash_append, hh]
      | cons x rest =>
        obtain ⟨hlow,hta⟩ := ih hlw (List.cons_ne_nil x rest) ha.lower
        rw [← List.append_assoc]
        refine ⟨?_,(tailHash_append e).trans hid.symm⟩
        exact htr.onto hinj hbel hlow (by simp) hta

def under (n : Node) (b : Block) (alt : AltChain) : List BlockEntry :=
  joined n.main.blocks (alt.map Prod.snd) (n.main.blockIndex.idxOf b.previousBlockHash + 1)

section Examined

variable (hinj : BlockInj env P) {n : Node} (hn : Charted env P n)
  {b : Block} {id : Hash} {alt : AltChain} {par : ℕ × UInt64 × List UInt64}
  (hexamined : Examined env n b id alt par)

include hinj hn hexamined

theorem Charted.under_traced : Traced env P (under n b alt) ∧ under n b alt ≠ [] ∧
      tailHash env (under n b alt) = b.previousBlockHash ∧
      par.1 + 1 = (under n b alt).length ∧ par.2.1 = topWork (under n b alt) := by
  unfold under
  rcases alternativeParent_cases hexamined.root with ⟨rfl,root,hr,rfl⟩ |
    ⟨front,rest,prev,root,rfl,hp,hz,hlen,hr,hh,rfl⟩
  · -- the parent is a block of the main chain
    have ht : joined n.main.blocks (([] : AltChain).map Prod.snd)
        (n.main.blockIndex.idxOf b.previousBlockHash + 1) =
        n.main.blocks.take (n.main.blockIndex.idxOf b.previousBlockHash) ++ [root] := by
      unfold joined
      rw [List.map_nil, List.append_nil]
      exact take_of_getElem hr
    have hin : b.previousBlockHash ∈ n.main.blockIndex := by
      rcases hexamined.known with halt | hm
      · rcases alternativeChain_cases hexamined.chain with ⟨-,hno⟩ | ⟨lower,_,_,-,hnil,-⟩
        · exact absurd halt (Finmap.lookup_eq_none.mp hno)
        · simp at hnil
      · exact hm
    have hh : env.getBlockHash root.bl = b.previousBlockHash := by
      have hget := List.getElem?_idxOf hin
      rw [hn.main.index, List.getElem?_map, ← hn.main.index, hr] at hget
      exact Option.some.inj hget
    have hlen := (List.getElem?_eq_some_iff.mp hr).1
    have htr := hn.main.traced.take (n.main.blockIndex.idxOf b.previousBlockHash + 1)
    rw [take_of_getElem hr] at htr
    rw [ht]
    refine ⟨htr,by simp,by rw [tailHash_append, hh],?_,topWork_append.symm⟩
    rw [List.length_append, List.length_take, List.length_singleton]
    omega
  · -- the parent is the last alternative block
    have ha : Hangs env n.main.blocks (front :: rest) := by
      intro o hoth
      cases hoth
      exact ⟨hz,root,hr,hh⟩
    obtain ⟨htr,hta⟩ := hn.joined_traced hinj hexamined.chain (List.cons_ne_nil front rest) ha
      (n.main.blockIndex.idxOf b.previousBlockHash + 1)
    refine ⟨htr,by simp [joined],hta,?_⟩
    obtain ⟨lower,hlw⟩ := List.getLast?_eq_some_iff.mp hp
    unfold joined at htr ⊢
    rw [hlw, List.map_append, List.map_singleton, ← List.append_assoc] at htr ⊢
    have hl := htr.last
    refine ⟨?_,topWork_append.symm⟩
    rw [List.length_append, List.length_singleton, ← hl.2.2.2.1]

omit hinj hn in
theorem stored_difficulty :
    getNextDifficultyForAlternativeChain env n.main.blocks (alt.map Prod.snd) (par.1 + 1) =
      getDifficultyForNextBlock env (under n b alt) := by
  obtain ⟨hpos,hle,-⟩ := alternativeParent_fork hexamined.root
  have hht : forkHeight (alt.map Prod.snd) (par.1 + 1) = forkHeight (alt.map Prod.snd)
      (n.main.blockIndex.idxOf b.previousBlockHash + 1) := by
    rcases alternativeParent_cases hexamined.root with ⟨rfl,root,hr,rfl⟩ |
      ⟨front,rest,prev,root,rfl,-⟩
    · rfl
    · rfl
  rw [← hht] at hpos hle
  have hw := alternativeWindow_eq env hpos hle
  have hu : joined n.main.blocks (alt.map Prod.snd) (par.1 + 1) = under n b alt := by
    unfold under joined
    rw [hht]
  rw [hu] at hw
  rw [getNextDifficulty_window, getDifficultyForNextBlock_window, hw]

theorem Charted.stored_traced (hb : P b) :
    Traced env P (under n b alt ++ [storedEntry env n b alt par]) := by
  obtain ⟨htr,-,ht,hlen,hw⟩ := hn.under_traced hinj hexamined
  refine .snoc htr hb ht.symm ?_ hlen ?_
  · rw [← hlen]
    exact getBlockHeight_of_inputs (prevalidate_inputs env hexamined.miner)
  · change par.2.1 + _ = _
    rw [stored_difficulty hexamined, hw, UInt64.add_comm]

end Examined

structure Connected (env : Env) (P : Block → Prop) (n : Node) (alt : AltChain) (split : ℕ)
    (dropped : List Block) (refused : AltChain) (v : Node) : Prop where
  front : ∃ front rest, alt = front :: rest ∧ front.2.height = split
  pos : split ≠ 0
  below : split < n.main.blocks.length
  dropped_eq : dropped = (n.main.blocks.drop split).map BlockEntry.bl
  main : MainTraced env P v.main
  alternatives : v.alternativeChains = n.alternativeChains
  blocks : ∃ done new, alt = done ++ refused ∧
    v.main.blocks = n.main.blocks.take split ++ new ∧
    new.map BlockEntry.bl = done.map fun entry => entry.2.bl

theorem Connected.take {n v : Node} {alt refused : AltChain} {split : ℕ} {drp : List Block}
    (h : Connected env P n alt split drp refused v) :
    v.main.blocks.take split = n.main.blocks.take split := by
  obtain ⟨_,_,-,hb,-⟩ := h.blocks
  have hbel := h.below
  rw [hb, List.take_append_of_le_length (by rw [List.length_take]; omega), List.take_take,
    Nat.min_self]

section Calls

variable {now : UInt64} {readd : Handler}
  {n : Node} {alt : AltChain} {b : Block}

theorem switchWith_connected {restore : List Block → ℕ → EStateM Fault Node Bool} {n n' : Node}
    (hn : MainTraced env P n.main) (halt : ∀ e ∈ alt, P e.2.bl) {dc suc : Bool}
    (h : switchWith env now restore readd alt dc n = .ok suc n') : (suc = false ∧ n' = n ∧
      ∀ front, alt.head? = some front → n.main.blocks.length ≤ front.2.height) ∨
    ∃ split drp refused v, Connected env P n alt split drp refused v ∧
      EndWith env restore readd alt split drp v refused dc suc n' := by
  rcases switchWith_cases h with hs | ⟨front,rest,rfl,hz,hlen,drp,u,refused,v, hdis,hcon,hend⟩
  · exact .inl hs
  · obtain ⟨hu,hua,-,hcut,hdrp⟩ := disconnect_traced hn hdis
    rw [Nat.sub_sub_self hlen.le] at hcut hdrp
    rw [List.append_nil] at hdrp
    obtain ⟨hv,hva,done,new,hd,hb,hnew⟩ := connect_traced hu halt hcon
    rw [hcut] at hb
    exact .inr ⟨front.2.height,drp,refused,v,⟨⟨front,rest,rfl,rfl⟩,hz,hlen,hdrp,
      hv,hva.trans hua,done,new,hd,hb,hnew⟩,hend⟩

theorem Charted.moved {n n' : Node} (hn : Charted env P n) (hm : MainTraced env P n'.main)
    (halt : n'.alternativeChains = n.alternativeChains) : Charted env P n' := by
  refine ⟨hm,?_⟩
  rw [halt]
  exact hn.alternatives

theorem Charted.erase (hn : Charted env P n) (alt : AltChain) :
    Charted env P (eraseAlternatives env alt n) := by
  refine ⟨?_,?_⟩
  · rw [eraseAlternatives_main]
    exact hn.main
  · intro id e hl
    rw [eraseAlternatives_lookup] at hl
    split_ifs at hl
    exact hn.alternatives id e hl

theorem Charted.insert (hn : Charted env P n) {e : BlockEntry} {lower : List BlockEntry}
    (hlw : lower ≠ []) (htr : Traced env P (lower ++ [e])) :
    Charted env P (insertAlternative env (env.getBlockHash e.bl) e n) := by
  refine ⟨hn.main,?_⟩
  intro id o hl
  by_cases hid : id = env.getBlockHash e.bl
  · subst hid
    rw [insertAlternative, Finmap.lookup_insert] at hl
    cases hl
    exact ⟨rfl,lower,hlw,htr⟩
  · rw [insertAlternative, Finmap.lookup_insert_of_ne _ hid] at hl
    exact hn.alternatives id o hl

theorem Charted.allowed (hn : Charted env P n) {id : Hash} {e : BlockEntry}
    (h : n.alternativeChains.lookup id = some e) : P e.bl := by
  obtain ⟨-,_,-,htr⟩ := hn.alternatives id e h
  exact htr.last.1

theorem Charted.chain_allowed (hn : Charted env P n) (hb : P b) {id : Hash}
    {par : ℕ × UInt64 × List UInt64} (hexamined : Examined env n b id alt par) :
    ∀ e ∈ alt ++ [(id, storedEntry env n b alt par)], P e.2.bl := by
  intro e hent
  rcases List.mem_append.mp hent with hold | hnew
  · exact hn.allowed (mem_alternativeChain hexamined.chain e hold)
  · rw [List.mem_singleton.mp hnew]
    exact hb

variable (hinj : BlockInj env P)

include hinj

theorem Charted.insert_examined (hn : Charted env P n) (hb : P b) {par : ℕ × UInt64 × List UInt64}
    (hexamined : Examined env n b (env.getBlockHash b) alt par) : Charted env P
      (insertAlternative env (env.getBlockHash b) (storedEntry env n b alt par) n) := by
  obtain ⟨-,hne,-⟩ := hn.under_traced hinj hexamined
  exact hn.insert hne (hn.stored_traced hinj hexamined hb)

theorem governs_charted : Governs env now P (fun _ _ => True) (Charted env P) where
  main := fun _ hn => hn.main.traced.allowed
  alternatives := fun _ hn _ _ => hn.allowed
  push := by
    intro b hb n hn
    refine ⟨?_,fun _ _ _ => trivial⟩
    rintro ⟨added,bvc⟩ n' h
    obtain ⟨hm,halt,-⟩ := pushPoolBlock_traced hn.main hb h
    exact ⟨hn.moved hm halt,trivial⟩
  pop := by
    intro hash n hn
    refine ⟨?_,fun _ _ _ => trivial⟩
    intro _ n' h
    obtain ⟨hm,halt,-⟩ := popBlock_traced hn.main h
    exact ⟨hn.moved hm halt,trivial⟩
  insert := fun _ _ _ _ hn hb hexamined => hn.insert_examined hinj hb hexamined
  erase := fun _ e hn => hn.erase [e]
  faults := fun _ _ _ _ => trivial

theorem addNewBlock_charted (hb : P b) {n n' : Node} {res : Bool × BlockVerificationContext}
    (hn : Charted env P n) (h : addNewBlock env now fuel b n = .ok res n') : Charted env P n' :=
  (((governs_charted hinj).steers.addNewBlock fuel hb n hn).1 _ _ h).1

end Calls

theorem charted_empty : Charted env P Node.empty where
  main := ⟨.nil,rfl⟩
  alternatives := by
    intro id e h
    simp [Node.empty] at h

theorem handleIncomingTransaction_setPool {now : UInt64} {tx : Transaction} {kept : Bool}
    {n n' : Node} {res : Bool × TxVerificationContext}
    (h : handleIncomingTransaction env now tx kept n = .ok res n') : ∃ p, n' = n.setPool p := by
  unfold handleIncomingTransaction at h
  rw [get_bind] at h
  dsimp only at h
  split_ifs at h
  · cases h
    exact ⟨n.pool,rfl⟩
  · cases h
    exact ⟨n.pool,rfl⟩
  · cases h
    exact ⟨n.pool,rfl⟩
  · obtain ⟨⟨_,p⟩,_,-,h⟩ := bind_ok.mp h
    cases h
    exact ⟨p,rfl⟩

theorem charted_of_run (hinj : BlockInj env P) {U : Set Transaction} {strict : Prop} {ck : UInt64}
    {n : Node} (h : Run env U P strict ck n) : Charted env P n := by
  induction h with
  | genesis _ allowed push =>
    obtain ⟨hm,halt,-⟩ := pushPoolBlock_traced charted_empty.main allowed push
    exact charted_empty.moved hm halt
  | block _ _ _ allowed call _ ih =>
    exact addNewBlock_charted hinj allowed ih call
  | transaction _ _ _ _ call ih =>
    obtain ⟨_,rfl⟩ := handleIncomingTransaction_setPool call
    exact ⟨ih.main,ih.alternatives⟩
  | idle _ _ _ ih => exact ⟨ih.main,ih.alternatives⟩

section Examining

variable {n : Node} {b : Block} {id : Hash} {alt : AltChain} {par : ℕ × UInt64 × List UInt64}

theorem getBlockHeight_of_examined (hex : Examined env n b id alt par) :
    getBlockHeight b = par.1 + 1 := by
  have hins := prevalidate_inputs env hex.miner
  unfold getBlockHeight
  rw [hins]

theorem front_height (hex : Examined env n b id alt par) {front : Hash × BlockEntry}
    (hfrt : (alt ++ [(id, storedEntry env n b alt par)]).head? = some front) :
    front.2.height = forkHeight (alt.map Prod.snd)
      (n.main.blockIndex.idxOf b.previousBlockHash + 1) := by
  rcases alternativeParent_cases hex.root with ⟨rfl,root,-,rfl⟩ | ⟨_,_,_,_,rfl,-⟩
  · cases hfrt
    rfl
  · cases hfrt
    rfl

end Examining

/-- One call on the node that returns: a new block, a new transaction or the
removal of expired ones. -/
inductive Step (env : Env) (U : Set Transaction) (P : Block → Prop) : Node → Node → Prop
  | block {now : UInt64} {n n' : Node} {b : Block} {fuel : ℕ}
      {result : Bool × BlockVerificationContext} (allowed : P b)
      (call : addNewBlock env now fuel b n = .ok result n') : Step env U P n n'
  | transaction {now : UInt64} {n n' : Node} {tx : Transaction} {keptByBlock : Bool}
      {result : Bool × TxVerificationContext} (allowed : tx ∈ U)
      (call : handleIncomingTransaction env now tx keptByBlock n = .ok result n') :
      Step env U P n n'
  | idle {now : UInt64} {n : Node} :
      Step env U P n (n.setPool (removeExpiredTransactions env now n.pool))

/-- For an alternative chain on a main chain, the window handed to
`nextDifficulty` is the window of the joined chain. So a block that was
accepted as an alternative is asked for the same difficulty on every main
chain that ends in its parent, in particular when a change of chains pushes
it. -/
theorem alternative_difficulty_kept (hinj : Set.InjOn env.getBlockHash {b | P b})
    {U : Set Transaction} {strict : Prop} {clock : UInt64} {n : Node}
    (hrun : Run env U P strict clock n) :
    (∀ alt height parent, alternativeParent env n alt height = .ok (some parent) →
      getNextDifficultyForAlternativeChain env n.main.blocks (alt.map Prod.snd) (height + 1) =
        env.currency.nextDifficulty
          (timestamps (alternativeWindow env n.main.blocks (alt.map Prod.snd) (height + 1)))
          ((alternativeWindow env n.main.blocks (alt.map Prod.snd) (height + 1)).map
            BlockEntry.cumulativeDifficulty) ∧
      getDifficultyForNextBlock env (joined n.main.blocks (alt.map Prod.snd) (height + 1)) =
        env.currency.nextDifficulty
          (timestamps (nextWindow env (joined n.main.blocks (alt.map Prod.snd) (height + 1))))
          ((nextWindow env (joined n.main.blocks (alt.map Prod.snd) (height + 1))).map
            BlockEntry.cumulativeDifficulty) ∧
      alternativeWindow env n.main.blocks (alt.map Prod.snd) (height + 1) =
        nextWindow env (joined n.main.blocks (alt.map Prod.snd) (height + 1))) ∧
    ∀ b alt entry flag, P b →
      examineAlternative env b (env.getBlockHash b) n = .ok (.store alt entry flag) →
      ∀ m, Arisen env P m → m.blocks ≠ [] → m.getTailId = b.previousBlockHash →
        getDifficultyForNextBlock env m.blocks =
          getNextDifficultyForAlternativeChain env n.main.blocks (alt.map Prod.snd)
            entry.height := by
  have hn := charted_of_run hinj hrun
  refine ⟨?_,?_⟩
  · intro alt height parent hpar
    obtain ⟨hpos,hle,-⟩ := alternativeParent_fork hpar
    exact ⟨rfl,rfl,alternativeWindow_eq env hpos hle⟩
  · intro b alt entry flag hb hex m hm hma ht
    obtain ⟨parent,hexamined,rfl,-⟩ := examineAlternative_store hex
    obtain ⟨htr,hne,hu,-⟩ := hn.under_traced hinj hexamined
    change _ = getNextDifficultyForAlternativeChain env n.main.blocks (alt.map Prod.snd)
      (parent.1 + 1)
    rw [stored_difficulty hexamined]
    rw [hm.traced.tail] at ht
    apply getDifficulty_congr
    exact Traced.meet hinj hm.traced.traced htr hma hne (ht.trans hu.symm)

theorem narrow_window : 2 ≤ 3 := by decide

def narrowEnv : Env :=
  { sampleEnv with
    currency := { sampleEnv.currency with
      difficultyWindow := 3
      difficultyLag := 0
      difficultyCut := 0
      difficultyWindow_valid := narrow_window } }

def narrowed (b : Block) (n : Node) : Node := left (addNewBlock narrowEnv 10000 0 b n)

def narrowBlock (n : Node) (height : ℕ) : Block :=
  blockOn n (height + 1) height height (111 * UInt64.ofNat height + 900)

def narrowMain : ℕ → Node
  | 0 => left (pushPoolBlock narrowEnv 0 narrowEnv.currency.genesisBlock Node.empty)
  | count + 1 => narrowed (narrowBlock (narrowMain count) (count + 1)) (narrowMain count)

def narrowFork (height parent : ℕ) : Block :=
  blockOn (narrowMain (height - 1)) (height + 11) parent height (100 * UInt64.ofNat height + 950)

def narrowNode : Node :=
  narrowed (narrowFork 4 14) (narrowed (narrowFork 3 13) (narrowed (narrowFork 2 2) (narrowMain 5)))

def narrowBlocks : List Block :=
  [narrowEnv.currency.genesisBlock, narrowBlock (narrowMain 0) 1, narrowBlock (narrowMain 1) 2,
    narrowBlock (narrowMain 2) 3, narrowBlock (narrowMain 3) 4, narrowBlock (narrowMain 4) 5,
    narrowFork 2 2, narrowFork 3 13, narrowFork 4 14, narrowFork 5 15]

theorem narrowBlocks_injective : Set.InjOn narrowEnv.getBlockHash {b | b ∈ narrowBlocks} :=
  fun _ hx _ hy => List.inj_on_of_nodup_map
    (show (narrowBlocks.map narrowEnv.getBlockHash).Nodup by decide) hx hy

theorem narrowed_run {b : Block} {n : Node}
    (hn : Run narrowEnv Set.univ (· ∈ narrowBlocks) False 10000 n) (hb : b ∈ narrowBlocks)
    (h : (value (addNewBlock narrowEnv 10000 0 b n)).isSome = true) :
    Run narrowEnv Set.univ (· ∈ narrowBlocks) False 10000 (narrowed b n) := by
  obtain ⟨⟨_,_⟩,hres⟩ := Option.isSome_iff_exists.mp h
  exact .block hn UInt64.le_rfl UInt64.le_rfl hb (eq_ok_of_value hres) False.elim

theorem narrowNode_run : Run narrowEnv Set.univ (· ∈ narrowBlocks) False 10000 narrowNode := by
  have h₀ : Run narrowEnv Set.univ (· ∈ narrowBlocks) False 10000 (narrowMain 0) :=
    .genesis (by decide) (by simp [narrowBlocks])
      (eq_ok_of_value (show _ = some (true, .added) from by decide))
  have h₁ := narrowed_run h₀ (b := narrowBlock (narrowMain 0) 1) (by simp [narrowBlocks])
    (by decide)
  have h₂ := narrowed_run h₁ (b := narrowBlock (narrowMain 1) 2) (by simp [narrowBlocks])
    (by decide)
  have h₃ := narrowed_run h₂ (b := narrowBlock (narrowMain 2) 3) (by simp [narrowBlocks])
    (by decide)
  have h₄ := narrowed_run h₃ (b := narrowBlock (narrowMain 3) 4) (by simp [narrowBlocks])
    (by decide)
  have h₅ := narrowed_run h₄ (b := narrowBlock (narrowMain 4) 5) (by simp [narrowBlocks])
    (by decide)
  have hf₂ := narrowed_run h₅ (b := narrowFork 2 2) (by simp [narrowBlocks]) (by decide)
  have hf₃ := narrowed_run hf₂ (b := narrowFork 3 13) (by simp [narrowBlocks]) (by decide)
  exact narrowed_run hf₃ (by simp [narrowBlocks]) (by decide)

def narrowPushed (b : Block) (m : MainChain) : MainChain := left (pushBlock narrowEnv 10000 b [] m)

def narrowSwitched : MainChain :=
  narrowPushed (narrowFork 4 14) (narrowPushed (narrowFork 3 13) (narrowPushed (narrowFork 2 2)
    (narrowPushed (narrowBlock (narrowMain 0) 1)
      (narrowPushed narrowEnv.currency.genesisBlock MainChain.empty))))

theorem narrowPushed_arisen {b : Block} {m : MainChain}
    (hm : Arisen narrowEnv (· ∈ narrowBlocks) m) (hb : b ∈ narrowBlocks)
    (h : (value (pushBlock narrowEnv 10000 b [] m)).isSome = true) :
    Arisen narrowEnv (· ∈ narrowBlocks) (narrowPushed b m) := by
  obtain ⟨⟨_,_⟩,hres⟩ := Option.isSome_iff_exists.mp h
  exact .push hm hb (eq_ok_of_value hres)

theorem narrowSwitched_arisen : Arisen narrowEnv (· ∈ narrowBlocks) narrowSwitched := by
  have h₀ := narrowPushed_arisen .empty (b := narrowEnv.currency.genesisBlock)
    (by simp [narrowBlocks]) (by decide)
  have h₁ := narrowPushed_arisen h₀ (b := narrowBlock (narrowMain 0) 1) (by simp [narrowBlocks])
    (by decide)
  have h₂ := narrowPushed_arisen h₁ (b := narrowFork 2 2) (by simp [narrowBlocks])
    (by decide)
  have h₃ := narrowPushed_arisen h₂ (b := narrowFork 3 13) (by simp [narrowBlocks])
    (by decide)
  exact narrowPushed_arisen h₃ (by simp [narrowBlocks]) (by decide)

def storedOn : Except Fault Verdict → Option (AltChain × BlockEntry)
  | .ok (.store alt entry _) => some (alt, entry)
  | _ => none

theorem eq_store_of_storedOn {verdict : Except Fault Verdict} {alt : AltChain} {e : BlockEntry}
    (h : storedOn verdict = some (alt, e)) : ∃ flag, verdict = .ok (.store alt e flag) := by
  cases verdict with
  | error _ => cases h
  | ok v =>
    cases v with
    | store _ _ flag =>
      cases h
      exact ⟨flag,rfl⟩
    | refuse _ | orphan => cases h

theorem alternative_difficulty_kept_sample : ∃ alt : AltChain,
    alt.map (fun e => e.2.bl.timestamp) = [1150, 1250, 1350] ∧
    alternativeWindow narrowEnv narrowNode.main.blocks (alt.map Prod.snd) 5 =
      nextWindow narrowEnv (joined narrowNode.main.blocks (alt.map Prod.snd) 5) ∧
    getDifficultyForNextBlock narrowEnv narrowSwitched.blocks =
      getNextDifficultyForAlternativeChain narrowEnv narrowNode.main.blocks
        (alt.map Prod.snd) 5 := by
  have hv : (storedOn (examineAlternative narrowEnv (narrowFork 5 15) 16 narrowNode)).map
      (fun found => (found.1.map (fun e => e.2.bl.timestamp), found.2.height)) =
      some ([1150, 1250, 1350], 5) := by decide
  obtain ⟨⟨alt,entry⟩,hst,hshape⟩ := Option.map_eq_some_iff.mp hv
  obtain ⟨htimes,hheight⟩ := Prod.mk.inj hshape
  obtain ⟨flag,hex⟩ := eq_store_of_storedOn hst
  obtain ⟨parent,hexamined,rfl,-⟩ := examineAlternative_store hex
  obtain ⟨hwindow,hkept⟩ := alternative_difficulty_kept narrowBlocks_injective narrowNode_run
  have hforked : forkHeight (alt.map Prod.snd) 5 = forkHeight (alt.map Prod.snd)
      (narrowNode.main.blockIndex.idxOf (narrowFork 5 15).previousBlockHash + 1) := by
    cases alt with
    | nil => cases htimes
    | cons _ _ => rfl
  refine ⟨alt,htimes,?_,?_⟩
  · have hsame := (hwindow alt _ parent hexamined.root).2.2
    unfold alternativeWindow joined at hsame ⊢
    rwa [hforked]
  · have hnext := hkept (narrowFork 5 15) alt _ flag (by simp [narrowBlocks]) hex narrowSwitched
      narrowSwitched_arisen (by decide) (by decide)
    rwa [hheight] at hnext

end Orbis.ChainCharted
