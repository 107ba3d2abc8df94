import Mathlib.Data.List.Chain
import Orbis.WalletSync

/-!
# Several consumers that follow one node

One answer, asked for with the history of the shortest consumer, is given to
all of them in the order of the map. A consumer that fails leaves those after
it on whatever chain they were. Still, of two neighbours one always has the
blocks of the other: the one that failed was cut back to the part it shares
with the node. So the shortest list is the beginning of every other, and the
answer fits all of them.
-/

set_option autoImplicit false

namespace Orbis.WalletSession

open FaultState ChainTypes ChainSemantic ChainIndices WalletSync

variable {start top localHeight lh : ℕ} {id : Hash}

def assertThat (condition : Prop) [Decidable condition] : Except Fault Unit :=
  if condition then .ok () else .error .aborted

def checkIntervalAsserted (blockchain : List Hash) (interval : BlockchainInterval) :
    Except Fault CheckResult := do
  assertThat (interval.startHeight ≤ blockchain.length)
  .ok (checkInterval blockchain interval)

def detachAsserted (c : Consumer) (height : ℕ) : Except Fault Consumer := do
  assertThat (height < c.blockchain.length)
  .ok (c.detach height)

def detachIfRequired (c : Consumer) (result : CheckResult) : Except Fault Consumer :=
  if result.detachRequired then detachAsserted c result.detachHeight else .ok c

def addBlocksAsserted (c : Consumer) (hashes : List Hash) (height : ℕ) :
    Except Fault Consumer := do
  assertThat (hashes ≠ [])
  assertThat (c.blockchain.length = height)
  .ok (c.addBlocks hashes)

/-- `updateConsumers` with its asserts. Each consumer comes with the answer of
its `onNewBlocks`. -/
def updateEach (interval : BlockchainInterval) :
    List (Consumer × Bool) → Except Fault (List Consumer)
  | [] => .ok []
  | (c, succeeds) :: rest => do
    let result ← checkIntervalAsserted c.blockchain interval
    let detached ← detachIfRequired c result
    if result.hasNewBlocks then
      if succeeds then
        let added ← addBlocksAsserted detached
          (interval.blocks.drop (result.newBlockHeight - interval.startHeight))
          result.newBlockHeight
        let others ← updateEach interval rest
        .ok (added :: others)
      else .ok (detached :: rest.map Prod.fst)
    else
      let others ← updateEach interval rest
      .ok (detached :: others)

def detachedFor (interval : BlockchainInterval) (c : Consumer) : Consumer :=
  if (checkInterval c.blockchain interval).detachRequired then
    c.detach (checkInterval c.blockchain interval).detachHeight
  else c

inductive Updated (chain : List Hash) (top : ℕ) : List Consumer → List Consumer → Prop
  | nil : Updated chain top [] []
  | kept {c : Consumer} {cs cs' : List Consumer} (covered : chain.take top <+: c.blockchain)
      (rest : Updated chain top cs cs') : Updated chain top (c :: cs) (c :: cs')
  | extended {c : Consumer} {cs cs' : List Consumer} (positive : 0 < top)
      (rest : Updated chain top cs cs') :
      Updated chain top (c :: cs) (c.setBlockchain (chain.take top) :: cs')
  | failed {c : Consumer} {cs : List Consumer} {k : ℕ} (positive : 0 < k) (below : k ≤ top)
      (agrees : c.blockchain.take k = chain.take k) :
      Updated chain top (c :: cs) (c.setBlockchain (chain.take k) :: cs)

theorem assertThat_of {condition : Prop} [Decidable condition] (h : condition) :
    assertThat condition = .ok () := if_pos h

theorem detachIfRequired_ok {interval : BlockchainInterval} {c c' : Consumer}
    (h : detachIfRequired c (checkInterval c.blockchain interval) = .ok c') :
    c' = detachedFor interval c := by
  unfold detachIfRequired at h
  unfold detachedFor
  split_ifs at h ⊢ with hrequired
  · obtain ⟨_,-,h⟩ := except_bind_ok.mp h
    cases h
    rfl
  · cases h
    rfl

/-- Where no assert fails, the round is that of `updateConsumers`. -/
theorem updateConsumers_of_updateEach (onNewBlocks : Consumer → Bool)
    {interval : BlockchainInterval} {cs cs' : List Consumer}
    (h : updateEach interval (cs.map fun c => (c, onNewBlocks (detachedFor interval c))) =
      .ok cs') (changed : Bool) :
    (updateConsumers onNewBlocks interval changed cs).2 = cs' := by
  induction cs generalizing cs' changed with
  | nil =>
    cases h
    rfl
  | cons c _ ih =>
    rw [List.map_cons, updateEach] at h
    obtain ⟨_,hcheck,h⟩ := except_bind_ok.mp h
    obtain ⟨_,-,hcheck⟩ := except_bind_ok.mp hcheck
    cases hcheck
    obtain ⟨_,hdetach,h⟩ := except_bind_ok.mp h
    obtain rfl := detachIfRequired_ok hdetach
    have hdetached : (if (checkInterval c.blockchain interval).detachRequired then
        c.detach (checkInterval c.blockchain interval).detachHeight else c) =
        detachedFor interval c := rfl
    rw [updateConsumers]
    dsimp only
    rw [hdetached]
    split_ifs at h with hnew hok
    · obtain ⟨_,hadd,h⟩ := except_bind_ok.mp h
      obtain ⟨_,-,hadd⟩ := except_bind_ok.mp hadd
      obtain ⟨_,-,hadd⟩ := except_bind_ok.mp hadd
      cases hadd
      obtain ⟨_,hrest,h⟩ := except_bind_ok.mp h
      cases h
      rw [if_pos hnew, if_pos hok, ih hrest]
    · cases h
      rw [if_pos hnew, if_neg hok, List.map_map]
      exact congrArg (_ :: ·) (List.map_id' _).symm
    · obtain ⟨_,hrest,h⟩ := except_bind_ok.mp h
      cases h
      rw [if_neg hnew, ih hrest]

theorem detachIfRequired_shared (c : Consumer) (chain : List Hash) :
    detachIfRequired c ⟨decide (shared c.blockchain chain < c.blockchain.length),
      if shared c.blockchain chain < c.blockchain.length then shared c.blockchain chain else 0,
      true,shared c.blockchain chain⟩ =
      .ok (c.setBlockchain (chain.take (shared c.blockchain chain))) := by
  unfold detachIfRequired
  by_cases hsh : shared c.blockchain chain < c.blockchain.length
  · rw [if_pos (decide_eq_true hsh), if_pos hsh, detachAsserted, assertThat_of hsh, ← take_shared]
    rfl
  · rw [if_neg (by simpa using hsh), ← take_shared, List.take_of_length_le (Nat.le_of_not_lt hsh)]
    rfl

theorem addBlocksAsserted_interval (c : Consumer) {chain : List Hash} {cnt k : ℕ} (hst : start ≤ k)
    (hk : k < start + cnt) (hend : start + cnt ≤ chain.length) :
    addBlocksAsserted (c.setBlockchain (chain.take k))
        (((chain.drop start).take cnt).drop (k - start)) k =
      .ok (c.setBlockchain (chain.take (start + cnt))) := by
  have hne : ((chain.drop start).take cnt).drop (k - start) ≠ [] := by
    apply List.ne_nil_of_length_pos
    rw [List.length_drop, List.length_take, List.length_drop]
    omega
  have hlen : (c.setBlockchain (chain.take k)).blockchain.length = k := by
    show (chain.take k).length = k
    rw [List.length_take]
    omega
  rw [addBlocksAsserted, assertThat_of hne, assertThat_of hlen, ← append_interval hst hk.le]
  rfl

theorem updateEach_updated {chain : List Hash} {cnt : ℕ} (hend : start + cnt ≤ chain.length)
    (flagged : List (Consumer × Bool)) (hshd : ∀ x ∈ flagged, start < shared x.1.blockchain chain) :
    ∃ cs', updateEach ⟨start,(chain.drop start).take cnt⟩ flagged = .ok cs' ∧
      Updated chain (start + cnt) (flagged.map Prod.fst) cs' := by
  induction flagged with
  | nil => exact ⟨[],rfl,.nil⟩
  | cons x _ ih =>
    obtain ⟨c,succeeds⟩ := x
    have hp : start < shared c.blockchain chain := hshd (c,succeeds) List.mem_cons_self
    have hst := hp.le
    have hle := shared_le c.blockchain chain
    obtain ⟨cs',hr,hupd⟩ := ih fun y hy => hshd y (List.mem_cons_of_mem _ hy)
    have hchk : checkIntervalAsserted c.blockchain ⟨start,(chain.drop start).take cnt⟩ =
        .ok (checkInterval c.blockchain ⟨start,(chain.drop start).take cnt⟩) := by
      rw [checkIntervalAsserted, assertThat_of (hst.trans hle.1)]
      rfl
    rw [updateEach]
    by_cases hl : shared c.blockchain chain < start + cnt
    · rw [checkInterval_of_shared hst (by omega) hl] at hchk
      have hd := detachIfRequired_shared c chain
      cases succeeds with
      | true =>
        refine ⟨_,except_bind_ok.mpr ⟨_,hchk,except_bind_ok.mpr ⟨_,hd,?_⟩⟩,
          .extended (by omega) hupd⟩
        apply except_bind_ok.mpr
        exact ⟨_,addBlocksAsserted_interval c hst hl hend, except_bind_ok.mpr ⟨_,hr,rfl⟩⟩
      | false =>
        exact ⟨_,except_bind_ok.mpr ⟨_,hchk,except_bind_ok.mpr ⟨_,hd,rfl⟩⟩,
          .failed (by omega) hl.le (take_shared _ _)⟩
    · obtain ⟨hd,hnew⟩ := checkInterval_within (Nat.le_of_not_lt hl)
      refine ⟨_,except_bind_ok.mpr ⟨_,hchk,except_bind_ok.mpr ⟨c,?_,?_⟩⟩, .kept ?_ hupd⟩
      · rw [detachIfRequired, hd]
        rfl
      · rw [hnew]
        exact except_bind_ok.mpr ⟨_,hr,rfl⟩
      · rw [← take_of_le_shared (Nat.le_of_not_lt hl)]
        exact List.take_prefix _ _

def Comparable (a b : Consumer) : Prop :=
  a.blockchain <+: b.blockchain ∨ b.blockchain <+: a.blockchain

theorem comparable_of_common {a b : Consumer} {l : List Hash} (ha : a.blockchain <+: l)
    (hb : b.blockchain <+: l) : Comparable a b :=
  List.prefix_or_prefix_of_prefix ha hb

theorem Comparable.shortened {a b a' : Consumer} (h : Comparable a b)
    (ha : a'.blockchain <+: a.blockchain) : Comparable a' b := by
  rcases h with hab | hba
  · exact .inl (ha.trans hab)
  · exact comparable_of_common ha hba

theorem shortest_first {cs : List Consumer} (hcs : cs.IsChain Comparable) {s : Consumer}
    (hs : s ∈ cs) (hsh : ∀ c ∈ cs, s.blockchain.length ≤ c.blockchain.length) :
    ∀ c ∈ cs, s.blockchain <+: c.blockchain := by
  have hp : ∀ a ∈ cs, ∀ b ∈ cs, Comparable a b → s.blockchain <+: a.blockchain →
      s.blockchain <+: b.blockchain := by
    intro a _ b hb hab hsa
    rcases hab with hab | hba
    · exact hsa.trans hab
    · exact List.prefix_of_prefix_length_le hsa hba (hsh b hb)
  have heq : cs.IsChain fun a b => s.blockchain <+: a.blockchain ↔
      s.blockchain <+: b.blockchain := by
    apply hcs.imp_of_mem_imp
    intro a b ha hb hab
    exact ⟨hp a ha b hb hab,hp b hb a ha hab.symm⟩
  obtain ⟨_,_,rfl⟩ := List.append_of_mem hs
  obtain ⟨hbef,haf⟩ := List.isChain_split.mp heq
  intro c hc
  rcases List.mem_append.mp hc with hc | hc
  · exact hbef.backwards_concat_induction _ _ (fun _ _ h => h.mpr) List.prefix_rfl c hc
  · rcases List.mem_cons.mp hc with rfl | hc
    · exact List.prefix_rfl
    · exact haf.cons_induction _ _ (fun _ _ h => h.mp) List.prefix_rfl c hc

theorem Updated.neighbours {chain : List Hash} {cs cs' : List Consumer}
    (h : Updated chain top cs cs') (hcs : cs.IsChain Comparable) : cs'.IsChain Comparable := by
  have hfl : ∀ {c : Consumer} {cs : List Consumer} {k : ℕ},
      c.blockchain.take k = chain.take k → (c :: cs).IsChain Comparable →
      (c.setBlockchain (chain.take k) :: cs).IsChain Comparable := by
    intro c cs k ha hcn
    apply hcn.imp_head
    intro next hn
    apply hn.shortened
    show chain.take k <+: c.blockchain
    rw [← ha]
    exact List.take_prefix _ _
  -- the consumer before is unchanged or has exactly the node's blocks
  have ht : ∀ {cs cs' : List Consumer}, Updated chain top cs cs' → ∀ {p p' : Consumer},
      (p' = p ∨ p'.blockchain = chain.take top) → chain.take top <+: p'.blockchain →
      (p :: cs).IsChain Comparable → (p' :: cs').IsChain Comparable := by
    intro cs cs' h
    induction h with
    | nil =>
      intro p p' _ _ _
      exact List.isChain_singleton p'
    | @kept c _ _ covered _ ih =>
      intro p p' hp htop hcn
      obtain ⟨hfst,hr⟩ := List.isChain_cons.mp hcn
      apply List.IsChain.cons (ih (.inl rfl) covered hr)
      intro next hn
      cases hn
      rcases hp with rfl | hp
      · exact hfst c rfl
      · exact .inl (hp ▸ covered)
    | @extended _ _ _ _ _ ih =>
      intro p p' hp htop hcn
      obtain ⟨hfst,hr⟩ := List.isChain_cons.mp hcn
      apply List.IsChain.cons (ih (.inr rfl) List.prefix_rfl hr)
      intro next hn
      cases hn
      exact .inr htop
    | @failed _ _ _ _ below agrees =>
      intro p p' hp htop hcn
      obtain ⟨hfst,hr⟩ := List.isChain_cons.mp hcn
      apply List.IsChain.cons (hfl agrees hr)
      intro next hn
      cases hn
      exact .inr ((List.take_prefix_take_left below).trans htop)
  cases h with
  | nil => exact hcs
  | kept covered rest => exact ht rest (.inl rfl) covered hcs
  | extended _ rest => exact ht rest (.inr rfl) List.prefix_rfl hcs
  | failed _ _ agrees => exact hfl agrees hcs

section Sessions

theorem mem_getShortHistory {bc : List Hash}
    (h : id ∈ getShortHistory bc lh) : ∃ ht : ℕ, bc[ht]? = some id := by
  unfold getShortHistory at h
  dsimp only at h
  split_ifs at h with hz
  · cases h
  · rcases List.mem_append.mp h with h | h
    · obtain ⟨_,-,hid⟩ := List.mem_filterMap.mp h
      exact ⟨_,hid⟩
    · exact List.getElem?_of_mem (List.mem_of_mem_take h)

theorem getCommonHistory_shortest {cs : List Consumer}
    (h : id ∈ (getCommonHistory lh cs).1) : ∃ s ∈ cs,
    (∀ c ∈ cs, s.blockchain.length ≤ c.blockchain.length) ∧
      id ∈ getShortHistory s.blockchain lh := by
  cases cs with
  | nil => cases h
  | cons first rest =>
    have hf : ∀ (rest : List Consumer) (first : Consumer),
        rest.foldl (fun s c => if c.blockchain.length < s.blockchain.length then c else s) first ∈
          first :: rest ∧ ∀ c ∈ first :: rest, (rest.foldl (fun s c =>
            if c.blockchain.length < s.blockchain.length then c else s) first).blockchain.length ≤
              c.blockchain.length := by
      intro rest
      induction rest with
      | nil => simp
      | cons next _ ih =>
        intro first
        rw [List.foldl_cons]
        split_ifs with hs
        · obtain ⟨hmem,hle⟩ := ih next
          refine ⟨List.mem_cons_of_mem _ hmem,?_⟩
          intro c hc
          rcases List.mem_cons.mp hc with rfl | hc
          · exact (hle next List.mem_cons_self).trans hs.le
          · exact hle c hc
        · obtain ⟨hmem,hle⟩ := ih first
          refine ⟨?_,?_⟩
          · rcases List.mem_cons.mp hmem with hfst | hmem
            · rw [hfst]
              exact List.mem_cons_self
            · exact List.mem_cons_of_mem _ (List.mem_cons_of_mem _ hmem)
          · intro c hc
            rcases List.mem_cons.mp hc with rfl | hc
            · exact hle c List.mem_cons_self
            · rcases List.mem_cons.mp hc with rfl | hc
              · exact (hle first List.mem_cons_self).trans (Nat.le_of_not_lt hs)
              · exact hle c (List.mem_cons_of_mem _ hc)
    exact ⟨_,(hf rest first).1,(hf rest first).2,h⟩

variable (env : Env) (V : Set Block) (genesis : Block)

structure NodeChain (blocks : List Block) : Prop where
  linked : Linked env blocks
  inside : ∀ b ∈ blocks, b ∈ V
  first : blocks[0]? = some genesis

/-- The chains that the node has had, the current one first, and the consumers
in the order of the map: the node changes its chain, a consumer that knows the
genesis block is added, or there is a round with any part of the chain from the
first block that the node recognises. -/
inductive Session : List (List Hash) → List Consumer → Prop
  | start {blocks : List Block} (chain : NodeChain env V genesis blocks) :
      Session [blocks.map env.getBlockHash] []
  | change {chains : List (List Hash)} {cs : List Consumer} {blocks : List Block}
      (before : Session chains cs) (chain : NodeChain env V genesis blocks) :
      Session (blocks.map env.getBlockHash :: chains) cs
  | join {chains : List (List Hash)} {l r : List Consumer} (before : Session chains (l ++ r))
      (syncStart : UInt64) : Session chains (l ++ ⟨syncStart,[env.getBlockHash genesis]⟩ :: r)
  | round {chain : List Hash} {chains : List (List Hash)} {cs cs' : List Consumer}
      {localHeight start count : ℕ} {answers : List Bool} (before : Session (chain :: chains) cs)
      (found : (getCommonHistory localHeight cs).1.findSome? (fun id => chain.idxOf? id) =
        some start)
      (all : answers.length = cs.length)
      (call : updateEach ⟨start,(chain.drop start).take count⟩ (cs.zip answers) = .ok cs') :
      Session (chain :: chains) cs'

theorem take_of_prefix {l r : List Hash} (h : l <+: r) {j : ℕ} (hj : j ≤ l.length) :
    l.take j = r.take j := by
  obtain ⟨_,rfl⟩ := h
  rw [List.take_append_of_le_length hj]

structure Consistent (chains : List (List Hash)) (cs : List Consumer) : Prop where
  nonempty : chains ≠ []
  linked : ∀ chain ∈ chains, ∃ blocks, NodeChain env V genesis blocks ∧
    chain = blocks.map env.getBlockHash
  held : ∀ c ∈ cs, ∃ chain ∈ chains, c.blockchain <+: chain
  first : ∀ c ∈ cs, c.blockchain[0]? = some (env.getBlockHash genesis)
  neighbours : cs.IsChain Comparable

variable {env V genesis}
variable {chain : List Hash} {chains : List (List Hash)} {cs cs' : List Consumer}

theorem Consistent.coherent (hV : Set.InjOn env.getBlockHash V)
    (h : Consistent env V genesis chains cs) {a b : List Hash} (ha : a ∈ chains) (hb : b ∈ chains)
    : Coherent a b := by
  obtain ⟨_,hbl,rfl⟩ := h.linked a ha
  obtain ⟨_,ho,rfl⟩ := h.linked b hb
  exact hbl.linked.coherent hV ho.linked hbl.inside ho.inside

theorem Consistent.recognised (hV : Set.InjOn env.getBlockHash V)
    (h : Consistent env V genesis (chain :: chains) cs)
    (hfd : (getCommonHistory lh cs).1.findSome? (fun id => chain.idxOf? id) = some start) :
    start < chain.length ∧ ∀ c ∈ cs, start < shared c.blockchain chain := by
  obtain ⟨id,hid,hix⟩ := List.exists_of_findSome?_eq_some hfd
  obtain ⟨s,hs,hsh,hhis⟩ := getCommonHistory_shortest hid
  obtain ⟨hgt,hht⟩ := mem_getShortHistory hhis
  obtain ⟨hst,hpl,-⟩ := List.idxOf?_eq_some_iff.mp hix
  have hcn : chain[start]? = some id := by
    rw [List.getElem?_eq_getElem hst, hpl]
  obtain ⟨old,hold,hb⟩ := h.held s hs
  have hlt := (List.getElem?_eq_some_iff.mp hht).1
  have hsa : old[hgt]? = some id := by
    obtain ⟨_,rfl⟩ := hb
    rw [List.getElem?_append_left hlt, hht]
  obtain ⟨rfl,ht⟩ := h.coherent hV hold List.mem_cons_self hgt start id hsa hcn
  refine ⟨hst,?_⟩
  intro c hc
  have hbe := shortest_first h.neighbours hs hsh c hc
  have hlen := hbe.length_le
  apply le_shared _ (by omega) hst
  rw [← take_of_prefix hbe (by omega), List.take_add_one, List.take_add_one, hht, hcn,
    take_of_prefix hb hlt.le, ht]

theorem Updated.held (h : Updated chain top cs cs')
    (hcs : ∀ c ∈ cs, ∃ old ∈ chain :: chains, c.blockchain <+: old) :
    ∀ c ∈ cs', ∃ old ∈ chain :: chains, c.blockchain <+: old := by
  have hnew : ∀ (c : Consumer) (k : ℕ), ∃ old ∈ chain :: chains,
      (c.setBlockchain (chain.take k)).blockchain <+: old :=
    fun c k => ⟨chain,List.mem_cons_self,List.take_prefix _ _⟩
  induction h with
  | nil => exact hcs
  | kept _ _ ih =>
    rw [List.forall_mem_cons] at hcs ⊢
    exact ⟨hcs.1,ih hcs.2⟩
  | extended _ _ ih =>
    rw [List.forall_mem_cons] at hcs ⊢
    exact ⟨hnew _ _,ih hcs.2⟩
  | failed _ _ _ =>
    rw [List.forall_mem_cons] at hcs ⊢
    exact ⟨hnew _ _,hcs.2⟩

theorem Updated.first (h : Updated chain top cs cs') (hcn : chain[0]? = some id)
    (hcs : ∀ c ∈ cs, c.blockchain[0]? = some id) : ∀ c ∈ cs', c.blockchain[0]? = some id := by
  have hnew : ∀ (c : Consumer) (k : ℕ), 0 < k →
      (c.setBlockchain (chain.take k)).blockchain[0]? = some id := by
    intro c k hk
    show (chain.take k)[0]? = some id
    rw [List.getElem?_take_of_lt hk, hcn]
  induction h with
  | nil => exact hcs
  | kept _ _ ih =>
    rw [List.forall_mem_cons] at hcs ⊢
    exact ⟨hcs.1,ih hcs.2⟩
  | extended positive _ ih =>
    rw [List.forall_mem_cons] at hcs ⊢
    exact ⟨hnew _ _ positive,ih hcs.2⟩
  | failed positive _ _ =>
    rw [List.forall_mem_cons] at hcs ⊢
    exact ⟨hnew _ _ positive,hcs.2⟩

theorem Consistent.round (hV : Set.InjOn env.getBlockHash V)
    (h : Consistent env V genesis (chain :: chains) cs)
    (hfd : (getCommonHistory lh cs).1.findSome? (fun id => chain.idxOf? id) =
      some start) (cnt : ℕ) {answers : List Bool} (hall : answers.length = cs.length) :
    ∃ cs', updateEach ⟨start,(chain.drop start).take cnt⟩ (cs.zip answers) = .ok cs' ∧
      Consistent env V genesis (chain :: chains) cs' := by
  obtain ⟨_,hshd⟩ := h.recognised hV hfd
  have hcnt : (chain.drop start).take cnt =
      (chain.drop start).take (min cnt (chain.length - start)) := by
    rw [List.take_eq_take_iff, List.length_drop]
    omega
  have hzip : (cs.zip answers).map Prod.fst = cs := List.map_fst_zip hall.ge
  have hend : start + min cnt (chain.length - start) ≤ chain.length := by omega
  obtain ⟨cs',hc,hupd⟩ := updateEach_updated hend (cs.zip answers) (by
    intro x hx
    apply hshd
    rw [← hzip]
    exact List.mem_map_of_mem hx)
  rw [hzip] at hupd
  obtain ⟨_,hb,hcn⟩ := h.linked chain List.mem_cons_self
  refine ⟨cs',?_,h.nonempty,h.linked,hupd.held h.held,hupd.first ?_ h.first,
    hupd.neighbours h.neighbours⟩
  · rw [hcnt, hc]
  · rw [hcn, List.getElem?_map, hb.first]
    rfl

theorem Session.consistent (hV : Set.InjOn env.getBlockHash V) (h : Session env V genesis chains cs)
    : Consistent env V genesis chains cs := by
  induction h with
  | start chain =>
    exact ⟨by simp,by simpa using ⟨_,chain,rfl⟩,by simp,by simp,List.isChain_nil⟩
  | @change _ _ bs _ chain ih =>
    refine ⟨List.cons_ne_nil _ _,?_,?_,ih.first,ih.neighbours⟩
    · rw [List.forall_mem_cons]
      exact ⟨⟨bs,chain,rfl⟩,ih.linked⟩
    · intro c hc
      obtain ⟨old,hold,hb⟩ := ih.held c hc
      exact ⟨old,List.mem_cons_of_mem _ hold,hb⟩
  | @join _ l r _ syncStart ih =>
    have hfst : ∀ list : List Hash, list[0]? = some (env.getBlockHash genesis) →
        [env.getBlockHash genesis] <+: list := by
      intro list hli
      cases list with
      | nil => cases hli
      | cons _ rest =>
        cases hli
        exact ⟨rest,rfl⟩
    have hnew : ∀ c ∈ l ++ r, Comparable c ⟨syncStart,[env.getBlockHash genesis]⟩ :=
      fun c hc => .inr (hfst _ (ih.first c hc))
    have hmem : ∀ c ∈ l ++ ⟨syncStart,[env.getBlockHash genesis]⟩ :: r,
        c ∈ l ++ r ∨ c = ⟨syncStart,[env.getBlockHash genesis]⟩ := by
      intro c hc
      rw [List.mem_append, List.mem_cons] at hc
      rw [List.mem_append]
      tauto
    obtain ⟨chain,hcn⟩ := List.exists_mem_of_ne_nil _ ih.nonempty
    obtain ⟨bs,hbl,rfl⟩ := ih.linked chain hcn
    obtain ⟨hl,hr,-⟩ := List.isChain_append.mp ih.neighbours
    refine ⟨ih.nonempty,ih.linked,?_,?_,?_⟩
    · intro c hc
      rcases hmem c hc with hc | rfl
      · exact ih.held c hc
      · exact ⟨_,hcn,hfst _ (by rw [List.getElem?_map, hbl.first]; rfl)⟩
    · intro c hc
      rcases hmem c hc with hc | rfl
      · exact ih.first c hc
      · rfl
    · apply hl.append
      · apply hr.cons
        intro y hy
        exact (hnew y (List.mem_append_right _ (List.mem_of_mem_head? hy))).symm
      · intro x hx y hy
        cases hy
        exact hnew x (List.mem_append_left _ (List.mem_of_mem_getLast? hx))
  | round _ found all call ih =>
    obtain ⟨_,hca,hco⟩ := ih.round hV found _ all
    rw [call, Except.ok.injEq] at hca
    exact hca ▸ hco

/-- In every session each consumer has a first part of a chain that the node
has had, and no assert fails in the next round. -/
theorem consumers_follow_node (hV : Set.InjOn env.getBlockHash V)
    (h : Session env V genesis chains cs) : (∀ c ∈ cs, ∃ old ∈ chains, c.blockchain <+: old) ∧
    ∀ chain before, chains = chain :: before → ∀ (localHeight start count : ℕ)
      (answers : List Bool), (getCommonHistory localHeight cs).1.findSome?
        (fun id => chain.idxOf? id) = some start → answers.length = cs.length →
      ∃ cs', updateEach ⟨start,(chain.drop start).take count⟩ (cs.zip answers) = .ok cs' := by
  have hc := h.consistent hV
  refine ⟨hc.held,?_⟩
  intro chain before heq localHeight start count answers hfd hall
  subst heq
  obtain ⟨cs',hca,-⟩ := hc.round hV hfd count hall
  exact ⟨cs',hca⟩

theorem linked_of_chain {blocks : List Block}
    (hheight : blocks.map getBlockHeight = List.range blocks.length)
    (hprevious : blocks.IsChain fun b next => next.previousBlockHash = env.getBlockHash b) :
    Linked env blocks where
  height := by
    intro i b hb
    have hi : (blocks.map getBlockHeight)[i]? = some (getBlockHeight b) := by
      rw [List.getElem?_map, hb]
      rfl
    rw [hheight, List.getElem?_range (List.getElem?_eq_some_iff.mp hb).1] at hi
    exact (Option.some.inj hi).symm
  previous := by
    intro i b next hb hn
    obtain ⟨_,rfl⟩ := List.getElem?_eq_some_iff.mp hb
    obtain ⟨hi,rfl⟩ := List.getElem?_eq_some_iff.mp hn
    exact List.isChain_iff_getElem.mp hprevious i hi

section Sample

open ChainRun

def link (nonce : UInt32) (parent : Hash) (height : ℕ) : Block :=
  mine nonce parent 0 (mint 0 height 0 (.key 1)) []

def oldLinks : List Block := [link 1 nullHash 0, link 2 1 1, link 3 2 2, link 4 3 3]

def newLinks : List Block := [link 1 nullHash 0, link 2 1 1, link 13 2 2, link 14 13 3, link 15 14 4]

def linkBlocks : Set Block := {b | b ∈ oldLinks ++ newLinks.drop 2}

theorem linkBlocks_injective : Set.InjOn sampleEnv.getBlockHash linkBlocks :=
  fun _ hx _ hy => List.inj_on_of_nodup_map
    (show ((oldLinks ++ newLinks.drop 2).map sampleEnv.getBlockHash).Nodup by decide +kernel) hx hy

theorem oldLinks_chain : NodeChain sampleEnv linkBlocks (link 1 nullHash 0) oldLinks where
  linked := linked_of_chain (by decide +kernel) (by decide +kernel)
  inside := fun _ hb => List.mem_append_left _ hb
  first := rfl

theorem newLinks_chain : NodeChain sampleEnv linkBlocks (link 1 nullHash 0) newLinks where
  linked := linked_of_chain (by decide +kernel) (by decide +kernel)
  inside := by
    intro b hb
    simp only [newLinks, List.mem_cons, List.not_mem_nil, or_false] at hb
    rcases hb with rfl | rfl | rfl | rfl | rfl <;> simp [linkBlocks, oldLinks, newLinks]
  first := rfl

/-- After the node has changed its chain at the third block, the first consumer
was cut back and failed, so the last one is still on the old chain; a new one
has come between them. -/
theorem forked_session : Session sampleEnv linkBlocks (link 1 nullHash 0)
    [[1, 2, 13, 14, 15], [1, 2, 3, 4]] [⟨0,[1, 2]⟩, ⟨7,[1]⟩, ⟨5,[1, 2, 3, 4]⟩] := by
  have hjoined : Session sampleEnv linkBlocks (link 1 nullHash 0) [[1, 2, 3, 4]]
      [⟨0,[1]⟩, ⟨5,[1]⟩] :=
    .join (l := []) (.join (l := []) (r := []) (.start oldLinks_chain) 5) 0
  have hfirst : Session sampleEnv linkBlocks (link 1 nullHash 0) [[1, 2, 3, 4]]
      [⟨0,[1, 2, 3, 4]⟩, ⟨5,[1, 2, 3, 4]⟩] :=
    @Session.round _ _ _ _ _ _ _ 0 0 4 [true, true] hjoined (by decide) rfl (by rfl)
  have hsecond : Session sampleEnv linkBlocks (link 1 nullHash 0)
      [[1, 2, 13, 14, 15], [1, 2, 3, 4]] [⟨0,[1, 2]⟩, ⟨5,[1, 2, 3, 4]⟩] :=
    @Session.round _ _ _ _ _ _ _ 4 1 3 [false, true] (.change hfirst newLinks_chain) (by decide)
      rfl (by rfl)
  exact .join (l := [_]) hsecond 7

theorem consumers_follow_node_sample :
    (∃ old ∈ [[1, 2, 13, 14, 15], [1, 2, 3, 4]], [1, 2, 3, 4] <+: old) ∧
    ∃ cs', updateEach ⟨0,[1, 2, 13, 14]⟩
      [(⟨0,[1, 2]⟩, true), (⟨7,[1]⟩, false), (⟨5,[1, 2, 3, 4]⟩, true)] = .ok cs' := by
  obtain ⟨hheld,hround⟩ := consumers_follow_node linkBlocks_injective forked_session
  exact ⟨hheld ⟨5,[1, 2, 3, 4]⟩ (by simp),
    hround _ _ rfl 0 0 4 [true, false, true] (by decide) rfl⟩

end Sample

end Sessions

end Orbis.WalletSession
