import Orbis.ChainKeys
import Orbis.ChainStock
import Orbis.ChainWindow

/-!
# What the stored blocks say about each other

Whatever happens to the tables, a stored block names the block below it, has
the height of its place in its coinbase, and carries the work of the chain
below plus its own difficulty. A list of entries with these properties is
traced. If blocks are told apart by their hashes, the last block of a traced
list determines all entries below it, so a main chain and an alternative
chain that meet in a block agree from there down.
-/

set_option autoImplicit false

namespace Orbis.ChainTrace

open FaultState ChainTypes ChainSemantic ChainTables ChainBlock ChainSound
open ChainNode ChainOutcome ChainKeys ChainStock ChainWindow

variable (env : Env) (P : Block → Prop)

variable {l r blocks bs : List BlockEntry} {e block blk : BlockEntry} {m m' : MainChain}
  {hash : Hash}
variable {b : Block} {added : Bool} {bvc : BlockVerificationContext}

def tailHash (blocks : List BlockEntry) : Hash :=
  match blocks.getLast? with
  | none => nullHash
  | some e => env.getBlockHash e.bl

def topWork (blocks : List BlockEntry) : UInt64 :=
  match blocks.getLast? with
  | none => 0
  | some e => e.cumulativeDifficulty

inductive Traced : List BlockEntry → Prop
  | nil : Traced []
  | snoc {blocks : List BlockEntry} {e : BlockEntry} (lower : Traced blocks) (allowed : P e.bl)
      (previous : e.bl.previousBlockHash = tailHash env blocks)
      (coinbase : getBlockHeight e.bl = blocks.length) (height : e.height = blocks.length)
      (work : e.cumulativeDifficulty = getDifficultyForNextBlock env blocks + topWork blocks) :
      Traced (blocks ++ [e])

def trace (e : BlockEntry) : Block × ℕ × UInt64 := (e.bl, e.height, e.cumulativeDifficulty)

variable {env P}

@[simp] theorem tailHash_append (e : BlockEntry) :
    tailHash env (bs ++ [e]) = env.getBlockHash e.bl := by
  simp [tailHash]

@[simp] theorem topWork_append : topWork (bs ++ [e]) = e.cumulativeDifficulty := by
  simp [topWork]

theorem topWork_congr (h : l.map trace = r.map trace) : topWork l = topWork r := by
  have hw : ∀ bs : List BlockEntry,
      topWork bs = ((bs.map trace).getLast?.map fun x => x.2.2).getD 0 := by
    intro bs
    unfold topWork
    rw [List.getLast?_map]
    cases bs.getLast? with
    | none => rfl
    | some _ => rfl
  rw [hw, hw, h]

theorem tailHash_congr (h : l.map trace = r.map trace) : tailHash env l = tailHash env r := by
  have ht : ∀ bs : List BlockEntry, tailHash env bs =
      ((bs.map trace).getLast?.map fun x => env.getBlockHash x.1).getD nullHash := by
    intro bs
    unfold tailHash
    rw [List.getLast?_map]
    cases bs.getLast? with
    | none => rfl
    | some _ => rfl
  rw [ht, ht, h]

theorem getDifficulty_congr (h : l.map trace = r.map trace) :
    getDifficultyForNextBlock env l = getDifficultyForNextBlock env r := by
  have hlen : l.length = r.length := by
    simpa using congrArg List.length h
  have hwi : (nextWindow env l).map trace = (nextWindow env r).map trace := by
    unfold nextWindow
    dsimp only
    rw [List.map_drop, List.map_drop, h, hlen]
  have ht : ∀ bs : List BlockEntry, timestamps bs = (bs.map trace).map fun x => x.1.timestamp := by
    intro bs
    unfold timestamps
    rw [List.map_map]
    rfl
  have hw : ∀ bs : List BlockEntry, bs.map BlockEntry.cumulativeDifficulty =
      (bs.map trace).map fun x => x.2.2 := by
    intro bs
    rw [List.map_map]
    rfl
  rw [getDifficultyForNextBlock_window, getDifficultyForNextBlock_window, ht, ht, hw, hw, hwi]

theorem Traced.of_append (h : Traced env P (l ++ r)) : Traced env P l := by
  generalize hl : l ++ r = list at h
  induction h generalizing r with
  | nil =>
    rw [(List.append_eq_nil_iff.mp hl).1]
    exact .nil
  | @snoc _ _ lower allowed prev coinbase ht work ih =>
    cases r using List.reverseRecOn with
    | nil =>
      rw [List.append_nil] at hl
      rw [hl]
      exact .snoc lower allowed prev coinbase ht work
    | append_singleton _ _ _ =>
      rw [← List.append_assoc] at hl
      exact ih (List.append_inj_left' hl rfl)

theorem Traced.take (h : Traced env P bs) (k : ℕ) : Traced env P (bs.take k) := by
  rw [← List.take_append_drop k bs] at h
  exact h.of_append

theorem Traced.last (h : Traced env P (bs ++ [e])) :
    P e.bl ∧ e.bl.previousBlockHash = tailHash env bs ∧
      getBlockHeight e.bl = bs.length ∧ e.height = bs.length ∧
      e.cumulativeDifficulty = getDifficultyForNextBlock env bs + topWork bs := by
  generalize hl : bs ++ [e] = list at h
  cases h with
  | nil => simp at hl
  | snoc _ allowed prev coinbase ht work =>
    obtain ⟨rfl,heq⟩ := List.append_inj' hl rfl
    obtain rfl := List.singleton_inj.mp heq
    exact ⟨allowed,prev,coinbase,ht,work⟩

theorem Traced.allowed (h : Traced env P bs) : ∀ e ∈ bs, P e.bl := by
  induction h with
  | nil =>
    intro e he
    cases he
  | snoc _ allowed _ _ _ _ ih =>
    intro o hoth
    rcases List.mem_append.mp hoth with hold | hnew
    · exact ih o hold
    · rw [List.mem_singleton.mp hnew]
      exact allowed

theorem Traced.unique (hinj : BlockInj env P) (hl : Traced env P l) (hr : Traced env P r)
    (hla : l.getLast?.map BlockEntry.bl = r.getLast?.map BlockEntry.bl) :
    l.map trace = r.map trace := by
  induction hl generalizing r with
  | nil =>
    cases r using List.reverseRecOn with
    | nil => rfl
    | append_singleton _ _ _ => simp at hla
  | @snoc bs e lower _ prev coinbase hgt work ih =>
    cases r using List.reverseRecOn with
    | nil => simp at hla
    | append_singleton r e' _ =>
      obtain ⟨-,prev',coinbase',hgt',work'⟩ := hr.last
      have hbl : e.bl = e'.bl := by simpa using hla
      have hlen : bs.length = r.length := by
        rw [← coinbase, ← coinbase', hbl]
      -- the entries right below have the hash that the block names
      have hbel : bs.getLast?.map BlockEntry.bl = r.getLast?.map BlockEntry.bl := by
        cases bs using List.reverseRecOn with
        | nil =>
          rw [List.eq_nil_of_length_eq_zero hlen.symm]
        | append_singleton _ x _ =>
          cases r using List.reverseRecOn with
          | nil => simp at hlen
          | append_singleton _ y _ =>
            have hh : env.getBlockHash x.bl = env.getBlockHash y.bl := by
              rw [tailHash_append] at prev prev'
              rw [← prev, ← prev', hbl]
            have hx : P x.bl := lower.last.1
            have hy : P y.bl := (hr.of_append).last.1
            have hxy : x.bl = y.bl := hinj hx hy hh
            simp [hxy]
      have hmap := ih hr.of_append hbel
      have hcum : e.cumulativeDifficulty = e'.cumulativeDifficulty := by
        rw [work, work', getDifficulty_congr hmap, topWork_congr hmap]
      have ht : trace e = trace e' := by
        unfold trace
        rw [hbl, hcum, hgt, hgt', hlen]
      rw [List.map_append, List.map_append, hmap, List.map_singleton, List.map_singleton, ht]

theorem Traced.replace (h : Traced env P (l ++ [e])) (hr : Traced env P r)
    (hmap : l.map trace = r.map trace) : Traced env P (r ++ [e]) := by
  obtain ⟨allowed,prev,coinbase,ht,work⟩ := h.last
  have hlen : l.length = r.length := by
    simpa using congrArg List.length hmap
  refine .snoc hr allowed ?_ ?_ ?_ ?_
  · rw [prev, tailHash_congr hmap]
  · rw [coinbase, hlen]
  · rw [ht, hlen]
  · rw [work, getDifficulty_congr hmap, topWork_congr hmap]

theorem Traced.meet (hinj : BlockInj env P) (hl : Traced env P l) (hr : Traced env P r)
    (hlne : l ≠ []) (hrne : r ≠ []) (ht : tailHash env l = tailHash env r)
    : l.map trace = r.map trace := by
  apply Traced.unique hinj hl hr
  cases l using List.reverseRecOn with
  | nil => exact absurd rfl hlne
  | append_singleton _ x _ =>
    cases r using List.reverseRecOn with
    | nil => exact absurd rfl hrne
    | append_singleton _ y _ =>
      rw [tailHash_append, tailHash_append] at ht
      have hxy : x.bl = y.bl := hinj hl.last.1 hr.last.1 ht
      simp [hxy]

theorem Traced.onto (hinj : BlockInj env P) (h : Traced env P (l ++ [e])) (hl : l ≠ [])
    (hr : Traced env P r) (hne : r ≠ []) (ht : tailHash env r = e.bl.previousBlockHash) :
    Traced env P (r ++ [e]) := by
  apply h.replace hr
  apply Traced.meet hinj h.of_append hr hl hne
  rw [ht, h.last.2.1]

def Framed (m m' : MainChain) : Prop := ∃ t, m' = m.setTables t

theorem Framed.refl (m : MainChain) : Framed m m := ⟨m.tables,rfl⟩

theorem Framed.trans {m'' : MainChain} (h : Framed m m') (h' : Framed m' m'') : Framed m m'' := by
  obtain ⟨_,rfl⟩ := h
  obtain ⟨u,rfl⟩ := h'
  exact ⟨u,rfl⟩

theorem onTables_framed {α : Type} {x : EStateM Fault Tables α} {a : α}
    (h : onTables x m = .ok a m') : Framed m m' := by
  obtain ⟨t,-,rfl⟩ := (within_ok _ _ _ _ _ _).mp h
  exact ⟨t,rfl⟩

variable {index : TransactionIndex} {size df : UInt64}
  {filled : Option (BlockEntry × UInt64 × UInt64)} {txs : List Transaction} {suc : Bool}

theorem pushTransaction_same {blk' : BlockEntry} {pushed : Bool}
    (h : onTables (pushTransaction env blk hash index) m = .ok (pushed, blk') m') :
    SameTransactions blk blk' := by
  obtain ⟨_,ht,rfl⟩ := (within_ok _ _ _ _ _ _).mp h
  exact ((pushTransaction_tame blk hash index m.tables trivial).1 _ _ ht).2

theorem pushTransactions_ok {now : UInt64} {l : List (Transaction × Hash)} {fee : UInt64}
    (h : pushTransactions env now hash l blk index size fee m = .ok filled m') :
    Framed m m' ∧ ∀ blk' size' fee', filled = some (blk', size', fee') →
      blk'.bl = blk.bl ∧ blk'.transactions.map TransactionEntry.tx =
        blk.transactions.map TransactionEntry.tx ++ l.map Prod.fst := by
  induction l generalizing blk index size fee m with
  | nil =>
    cases h
    refine ⟨.refl _,?_⟩
    intro blk' size' fee' heq
    cases heq
    exact ⟨rfl,(List.append_nil _).symm⟩
  | cons x _ ih =>
    obtain ⟨tx,_⟩ := x
    simp only [pushTransactions, bind_ok, reading_ok] at h
    obtain ⟨valid,_,⟨-,rfl⟩,h⟩ := h
    cases valid with
    | false =>
      simp only [Bool.not_false, if_true, bind_ok] at h
      obtain ⟨_,v,hpop,hpu⟩ := h
      cases hpu
      refine ⟨onTables_framed hpop,?_⟩
      intro blk' size' fee' heq
      cases heq
    | true =>
      simp only [Bool.not_true, Bool.false_eq_true, if_false, bind_ok] at h
      obtain ⟨⟨_,_⟩,v,hp,hr⟩ := h
      obtain ⟨hfrd,hfil⟩ := ih hr
      refine ⟨(onTables_framed hp).trans hfrd,?_⟩
      intro blk' size' fee' heq
      obtain ⟨hbl,htxs⟩ := hfil blk' size' fee' heq
      obtain ⟨hs,hsa⟩ := pushTransaction_same hp
      refine ⟨hbl.trans hs,?_⟩
      rw [htxs, hsa]
      simp [appendTransaction]

structure Appended (env : Env) (now : UInt64) (m : MainChain) (b : Block)
    (txs : List Transaction) (e : BlockEntry) (m' : MainChain) : Prop where
  header : HeaderOk env now m b (getDifficultyForNextBlock env m.blocks)
  block : e.bl = b
  height : e.height = m.blocks.length
  work : e.cumulativeDifficulty = getDifficultyForNextBlock env m.blocks + topWork m.blocks
  transactions : e.transactions.map TransactionEntry.tx =
    b.baseTransaction :: (txs.zip b.transactionHashes).map Prod.fst
  blocks : m'.blocks = m.blocks ++ [e]
  index : m'.blockIndex = m.blockIndex ++ [env.getBlockHash b]

theorem finishEntry_work {em : Int64} : (finishEntry bs blk df size em).cumulativeDifficulty =
      df + topWork bs := by
  unfold finishEntry topWork
  cases bs.getLast? with
  | none => exact (UInt64.add_zero df).symm
  | some _ => rfl

theorem finishBlock_ok {u : MainChain}
    (h : finishBlock env m.blocks b df filled u = .ok (added, bvc) m') :
    (added = false ∧ Framed u m') ∨ (added = true ∧ bvc = .added ∧ ∃ blk size fee em ht,
      filled = some (blk, size, fee) ∧ m' = setGenerated (storeBlock env
        (finishEntry m.blocks blk df size em) u)
        (u.generatedTransactionsIndex.add ht blk.bl.transactionHashes.length)) := by
  cases filled with
  | none =>
    cases h
    exact .inl ⟨rfl,.refl _⟩
  | some res =>
    obtain ⟨blk,size,fee⟩ := res
    simp only [finishBlock] at h
    split at h
    · cases h
      exact .inl ⟨rfl,.refl _⟩
    · cases hrw : validateMinerTransaction env m.blocks b size (alreadyGenerated m.blocks) fee with
      | none =>
        simp only [hrw, bind_ok] at h
        obtain ⟨_,v,hpop,hp⟩ := h
        cases hp
        exact .inl ⟨rfl,onTables_framed hpop⟩
      | some em =>
        simp only [hrw, bind_ok] at h
        obtain ⟨_,v,hent,hp⟩ := h
        cases hp
        refine .inr ⟨rfl,rfl,blk,size,fee,em,?_⟩
        have hbl : (finishEntry m.blocks blk df size em).bl = blk.bl := rfl
        cases hht : coinbaseHeight blk.bl with
        | none =>
          unfold pushEntry at hent
          rw [modify_bind, hbl, hht] at hent
          cases hent
        | some ht =>
          rw [← hbl] at hht
          rw [pushEntry_ok hht] at hent
          cases hent
          exact ⟨ht,rfl,rfl⟩

theorem pushBlock_ok {now : UInt64} (h : pushBlock env now b txs m = .ok (added, bvc) m') :
    (added = false ∧ Framed m m') ∨
    (added = true ∧ bvc = .added ∧ ∃ e, Appended env now m b txs e m') := by
  unfold pushBlock at h
  rw [get_bind] at h
  cases hhd : checkHeader env now m b with
  | error _ =>
    rw [hhd] at h
    cases h
    exact .inl ⟨rfl,.refl _⟩
  | ok df =>
    simp only [hhd, bind_ok] at h
    obtain ⟨⟨_,_⟩,_,hcb,_,_,hl,hfi⟩ := h
    have hok := (checkHeader_ok env).mp hhd
    obtain ⟨hfrd,hfil⟩ := pushTransactions_ok hl
    have hf := (onTables_framed hcb).trans hfrd
    rcases finishBlock_ok hfi with ⟨rfl,hla⟩ | ⟨rfl,rfl,blk',size,fee,em,ht,rfl,rfl⟩
    · exact .inl ⟨rfl,hf.trans hla⟩
    · refine .inr ⟨rfl,rfl,finishEntry m.blocks blk' df size em,?_⟩
      obtain ⟨hs,hsa⟩ := pushTransaction_same hcb
      obtain ⟨hbl,htxs⟩ := hfil blk' size fee rfl
      obtain ⟨_,rfl⟩ := hf
      have hd := hok.difficulty_eq
      subst hd
      have hb : blk'.bl = b := hbl.trans hs
      refine ⟨hok,hb,rfl,finishEntry_work,?_,rfl,?_⟩
      · change blk'.transactions.map TransactionEntry.tx = _
        rw [htxs, hsa]
        rfl
      · change (if env.getBlockHash blk'.bl ∈ m.blockIndex then m.blockIndex
          else m.blockIndex ++ [env.getBlockHash blk'.bl]) = _
        rw [hb, if_neg hok.fresh]

theorem popStoredBlock_ok (h : popStoredBlock env hash m = .ok ⟨⟩ m') :
    m'.blocks = m.blocks.dropLast ∧ (m.blocks ≠ [] → m'.blockIndex = m.blockIndex.dropLast) := by
  unfold popStoredBlock at h
  rw [get_bind] at h
  cases hl : m.blocks.getLast? with
  | none =>
    rw [hl] at h
    cases h
    have hnil : m.blocks = [] := List.getLast?_eq_none_iff.mp hl
    exact ⟨by rw [hnil]; rfl,fun hne => absurd hnil hne⟩
  | some blk =>
    simp only [hl] at h
    obtain ⟨_,u,hpop,h⟩ := bind_ok.mp h
    rw [modify_bind] at h
    obtain ⟨_,rfl⟩ := onTables_framed hpop
    cases hht : coinbaseHeight blk.bl with
    | none =>
      rw [hht] at h
      cases h
    | some _ =>
      simp only [hht] at h
      rw [modify_bind] at h
      cases h
      exact ⟨rfl,fun _ => rfl⟩

structure MainTraced (env : Env) (P : Block → Prop) (m : MainChain) : Prop where
  traced : Traced env P m.blocks
  index : m.blockIndex = m.blocks.map fun e => env.getBlockHash e.bl

theorem MainTraced.tail (h : MainTraced env P m) : m.getTailId = tailHash env m.blocks := by
  unfold MainChain.getTailId
  rw [h.index]
  cases hb : m.blocks using List.reverseRecOn with
  | nil => rfl
  | append_singleton _ _ _ => simp

theorem MainTraced.framed (h : MainTraced env P m) (hfrd : Framed m m') : MainTraced env P m' := by
  obtain ⟨_,rfl⟩ := hfrd
  exact ⟨h.traced,h.index⟩

theorem MainTraced.appended {now : UInt64} (h : MainTraced env P m) (hb : P b)
    (happ : Appended env now m b txs e m') : MainTraced env P m' := by
  obtain ⟨header,blk,ht,work,-,bs,index⟩ := happ
  subst blk
  refine ⟨?_,?_⟩
  · rw [bs]
    refine .snoc h.traced hb ?_ ?_ ht work
    · rw [header.previous, h.tail]
    · have hins := prevalidate_inputs env header.miner
      unfold getBlockHeight
      rw [hins]
  · rw [index, bs, h.index, List.map_append]
    rfl

theorem MainTraced.popped (h : MainTraced env P m) (hpop : popStoredBlock env hash m = .ok ⟨⟩ m')
    : MainTraced env P m' := by
  obtain ⟨hb,hix⟩ := popStoredBlock_ok hpop
  by_cases hnil : m.blocks = []
  · refine ⟨?_,?_⟩
    · rw [hb, hnil]
      exact .nil
    · unfold popStoredBlock at hpop
      rw [get_bind, hnil] at hpop
      cases hpop
      exact h.index
  · refine ⟨?_,?_⟩
    · rw [hb, List.dropLast_eq_take]
      exact h.traced.take _
    · rw [hix hnil, hb, h.index, List.map_dropLast]

/-- The main chains that pushes and pops of blocks with `P` lead to, refused
pushes included: all that a node has at any moment, also halfway through a
change of chains. -/
inductive Arisen (env : Env) (P : Block → Prop) : MainChain → Prop
  | empty : Arisen env P MainChain.empty
  | push {m m' : MainChain} {now : UInt64} {b : Block} {txs : List Transaction} {added : Bool}
      {bvc : BlockVerificationContext} (before : Arisen env P m) (allowed : P b)
      (call : pushBlock env now b txs m = .ok (added, bvc) m') : Arisen env P m'
  | pop {m m' : MainChain} {hash : Hash} (before : Arisen env P m)
      (call : popStoredBlock env hash m = .ok ⟨⟩ m') : Arisen env P m'

theorem Arisen.traced (h : Arisen env P m) : MainTraced env P m := by
  induction h with
  | empty => exact ⟨.nil,rfl⟩
  | push _ allowed call ih =>
    rcases pushBlock_ok call with ⟨-,hfrd⟩ | ⟨-,-,_,happ⟩
    · exact ih.framed hfrd
    · exact ih.appended allowed happ
  | pop _ call ih => exact ih.popped call

section Node

variable {now : UInt64} {n n' : Node}

theorem pushPoolBlock_ok (h : pushPoolBlock env now b n = .ok (added, bvc) n') :
    n'.alternativeChains = n.alternativeChains ∧ ((added = false ∧ Framed n.main n'.main) ∨
      (added = true ∧ bvc = .added ∧ ∃ txs e, Appended env now n.main b txs e n'.main)) := by
  rcases pushPoolBlock_cases h with ⟨rfl,hl⟩ | ⟨txs,_,_,hl,hp,hend⟩
  · obtain ⟨p,rfl,-⟩ := loadTransactions_stock hl
    exact ⟨rfl,.inl ⟨rfl,n.main.tables,rfl⟩⟩
  · obtain ⟨p,rfl,-⟩ := loadTransactions_stock hl
    rcases hend with ⟨rfl,rfl⟩ | ⟨rfl,hs⟩
    · rcases pushBlock_ok hp with ⟨hff,-⟩ | ⟨-,rfl,e,happ⟩
      · cases hff
      · exact ⟨rfl,.inr ⟨rfl,rfl,txs,e,happ⟩⟩
    · obtain ⟨_,rfl,-⟩ := saveTransactions_stock hs
      rcases pushBlock_ok hp with ⟨-,hfrd⟩ | ⟨ht,-⟩
      · exact ⟨rfl,.inl ⟨rfl,hfrd⟩⟩
      · cases ht

theorem popBlock_ok (hl : n.main.blocks.getLast? = some blk)
    (h : popBlock env now hash n = .ok ⟨⟩ n') : n'.alternativeChains = n.alternativeChains ∧
      ∃ m, popStoredBlock env hash n.main = .ok ⟨⟩ m ∧ n'.main = m := by
  obtain ⟨_,m,hs,hpop,rfl⟩ := popBlock_cases hl h
  obtain ⟨_,rfl,-⟩ := saveTransactions_stock hs
  exact ⟨rfl,m,hpop,rfl⟩

theorem pushPoolBlock_traced (hn : MainTraced env P n.main) (hb : P b)
    (h : pushPoolBlock env now b n = .ok (added, bvc) n') :
    MainTraced env P n'.main ∧ n'.alternativeChains = n.alternativeChains ∧
    ((added = false ∧ n'.main.blocks = n.main.blocks) ∨
      (added = true ∧ bvc = .added ∧ ∃ txs e, Appended env now n.main b txs e n'.main)) := by
  obtain ⟨ha,hc⟩ := pushPoolBlock_ok h
  rcases hc with ⟨rfl,hfrd⟩ | ⟨rfl,rfl,txs,e,happ⟩
  · refine ⟨hn.framed hfrd,ha,.inl ⟨rfl,?_⟩⟩
    obtain ⟨_,ht⟩ := hfrd
    rw [ht]
    rfl
  · exact ⟨hn.appended hb happ,ha,.inr ⟨rfl,rfl,txs,e,happ⟩⟩

theorem popBlock_traced (hn : MainTraced env P n.main) (h : popBlock env now hash n = .ok ⟨⟩ n') :
    MainTraced env P n'.main ∧ n'.alternativeChains = n.alternativeChains ∧
      n'.main.blocks = n.main.blocks.dropLast := by
  cases hl : n.main.blocks.getLast? with
  | none =>
    unfold popBlock at h
    rw [get_bind, hl] at h
    cases h
    rw [List.getLast?_eq_none_iff.mp hl]
    exact ⟨hn,rfl,rfl⟩
  | some _ =>
    obtain ⟨ha,_,hm,rfl⟩ := popBlock_ok hl h
    exact ⟨hn.popped hm,ha,(popStoredBlock_ok hm).1⟩

theorem disconnect_traced (hn : MainTraced env P n.main) {cnt : ℕ} {rmd list : List Block}
    (h : disconnect env now cnt rmd n = .ok list n') :
    MainTraced env P n'.main ∧ n'.alternativeChains = n.alternativeChains ∧
      cnt ≤ n.main.blocks.length ∧
      n'.main.blocks = n.main.blocks.take (n.main.blocks.length - cnt) ∧
      list = (n.main.blocks.drop (n.main.blocks.length - cnt)).map BlockEntry.bl ++ rmd := by
  induction cnt generalizing rmd n with
  | zero =>
    cases h
    simp [hn]
  | succ cnt ih =>
    simp only [disconnect] at h
    rw [get_bind] at h
    cases hb : n.main.blocks using List.reverseRecOn with
    | nil =>
      rw [hb] at h
      cases h
    | append_singleton bs e _ =>
      have hla : n.main.blocks.getLast? = some e := by
        rw [hb]
        simp
      simp only [hla, bind_ok] at h
      obtain ⟨_,_,hpop,hr⟩ := h
      obtain ⟨hu,halt,hd⟩ := popBlock_traced hn hpop
      rw [hb, List.dropLast_concat] at hd
      obtain ⟨hn',halt',hle,ht,hl⟩ := ih hu hr
      rw [hd] at hle ht hl
      have hlen : (bs ++ [e]).length - (cnt + 1) = bs.length - cnt := by
        rw [List.length_append, List.length_singleton]
        omega
      refine ⟨hn',halt'.trans halt,?_,?_,?_⟩
      · rw [List.length_append, List.length_singleton]
        omega
      · rw [hlen, ht, List.take_append_of_le_length (Nat.sub_le _ _)]
      · rw [hlen, hl, List.drop_append_of_le_length (Nat.sub_le _ _), List.map_append,
          List.append_assoc]
        rfl

theorem reconnect_traced (hn : MainTraced env P n.main) {l : List Block} (hl : ∀ b ∈ l, P b)
    (h : reconnect env now l n = .ok suc n') :
    MainTraced env P n'.main ∧ n'.alternativeChains = n.alternativeChains ∧
      ∃ new, n'.main.blocks = n.main.blocks ++ new ∧ (suc = true → new.map BlockEntry.bl = l) := by
  induction l generalizing n with
  | nil =>
    cases h
    exact ⟨hn,rfl,[],(List.append_nil _).symm,fun _ => rfl⟩
  | cons b _ ih =>
    simp only [reconnect, bind_ok] at h
    obtain ⟨⟨_,_⟩,_,hp,hr⟩ := h
    obtain ⟨hu,halt,hc⟩ := pushPoolBlock_traced hn (hl b (by simp)) hp
    rcases hc with ⟨rfl,hsa⟩ | ⟨rfl,rfl,_,e,happ⟩
    · cases hr
      exact ⟨hu,halt,[],by rw [hsa, List.append_nil],fun hff => Bool.noConfusion hff⟩
    · obtain ⟨hn',halt',new,hb,hnew⟩ := ih hu (fun o hoth => hl o (List.mem_cons_of_mem _ hoth)) hr
      refine ⟨hn',halt'.trans halt,e :: new,?_,?_⟩
      · rw [hb, happ.blocks, List.append_assoc]
        rfl
      · intro hs
        rw [List.map_cons, hnew hs, happ.block]

theorem connect_traced (hn : MainTraced env P n.main) {alt refused : AltChain}
    (halt : ∀ en ∈ alt, P en.2.bl) (h : connect env now alt n = .ok refused n') :
    MainTraced env P n'.main ∧ n'.alternativeChains = n.alternativeChains ∧
      ∃ done new, alt = done ++ refused ∧ n'.main.blocks = n.main.blocks ++ new ∧
        new.map BlockEntry.bl = done.map fun en => en.2.bl := by
  induction alt generalizing n with
  | nil =>
    cases h
    exact ⟨hn,rfl,[],[],rfl,(List.append_nil _).symm,rfl⟩
  | cons en _ ih =>
    simp only [connect, bind_ok] at h
    obtain ⟨⟨_,_⟩,_,hp,hr⟩ := h
    obtain ⟨hu,hs,hc⟩ := pushPoolBlock_traced hn (halt en (by simp)) hp
    rcases hc with ⟨rfl,hb⟩ | ⟨rfl,rfl,_,e,happ⟩
    · cases hr
      exact ⟨hu,hs,[],[],rfl,by rw [hb, List.append_nil],rfl⟩
    · obtain ⟨hn',hs',done,new,rfl,hb,hnew⟩ := ih hu
        (fun o hoth => halt o (List.mem_cons_of_mem _ hoth)) hr
      refine ⟨hn',hs'.trans hs,en :: done,e :: new,rfl,?_,?_⟩
      · rw [hb, happ.blocks, List.append_assoc]
        rfl
      · rw [List.map_cons, List.map_cons, hnew, happ.block]

theorem rollback_traced (hn : MainTraced env P n.main) {orig : List Block} (ho : ∀ b ∈ orig, P b)
    {hgt : ℕ} (h : rollbackBlockchainSwitching env now orig hgt n = .ok suc n') :
    MainTraced env P n'.main ∧ n'.alternativeChains = n.alternativeChains ∧
      ∃ new, n'.main.blocks = n.main.blocks.take hgt ++ new ∧
        (suc = true → new.map BlockEntry.bl = orig) := by
  unfold rollbackBlockchainSwitching at h
  rw [get_bind, bind_ok] at h
  obtain ⟨_,_,hdis,hr⟩ := h
  obtain ⟨hu,halt,_,ht,-⟩ := disconnect_traced hn hdis
  obtain ⟨hn',halt',new,hb,hnew⟩ := reconnect_traced hu ho hr
  refine ⟨hn',halt'.trans halt,new,?_,hnew⟩
  have hht : n.main.blocks.take
      (n.main.blocks.length - (n.main.blocks.length - hgt)) = n.main.blocks.take hgt := by
    by_cases hl : hgt ≤ n.main.blocks.length
    · rw [Nat.sub_sub_self hl]
    · rw [List.take_of_length_le (by omega), List.take_of_length_le (by omega)]
  rw [hb, ht, hht]

end Node

end Orbis.ChainTrace
