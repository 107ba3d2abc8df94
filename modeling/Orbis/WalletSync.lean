import Orbis.ChainQuery
import Orbis.ChainIndices

/-!
# How a wallet follows a node

A wallet keeps the ids of the blocks it has seen. In each round it sends some
of them to a node, at distances from its end that double, and the node answers
with the blocks from the first one that it knows. When the two chains differ,
the wallet drops its own blocks from the first difference on, provided that
the answer reaches that far. An answer has a fixed length and the distances
grow, so for a deep fork it may not.
-/

set_option autoImplicit false

namespace Orbis.WalletSync

open FaultState ChainTypes ChainCurrency ChainSemantic ChainBlock ChainBuilt ChainCache
open ChainIndices HalvingSearch ChainQuery

variable {i size height hgt j start cnt k : ℕ}

section Rounds

def shortOffsets (size : ℕ) : ℕ → ℕ → ℕ → ℕ → List ℕ
  | 0, _, _, _ => []
  | fuel + 1, i, multiplier, offset =>
    if offset < size then
      offset :: (if i < 10 then shortOffsets size fuel (i + 1) multiplier (offset + 1)
        else shortOffsets size fuel (i + 1) (multiplier * 2) (offset + multiplier * 2))
    else []

def getShortHistory (blockchain : List Hash) (localHeight : ℕ) : List Hash :=
  let size := min blockchain.length (localHeight + 1)
  if size = 0 then []
  else ((shortOffsets size size 0 1 1).filterMap fun offset => blockchain[size - offset]?) ++
    blockchain.take 1

structure BlockchainInterval where
  startHeight : ℕ
  blocks : List Hash

structure CheckResult where
  detachRequired : Bool
  detachHeight : ℕ
  hasNewBlocks : Bool
  newBlockHeight : ℕ

def checkInterval (blockchain : List Hash) (interval : BlockchainInterval) : CheckResult :=
  let intervalEnd := interval.startHeight + interval.blocks.length
  let iterationEnd := min blockchain.length intervalEnd
  match (List.range' interval.startHeight (iterationEnd - interval.startHeight)).find? fun i =>
      blockchain[i]? != interval.blocks[i - interval.startHeight]? with
  | some i => ⟨true,i,true,i⟩
  | none =>
    if blockchain.length < intervalEnd then ⟨false,0,true,blockchain.length⟩
    else ⟨false,0,false,0⟩

structure Consumer where
  syncStart : UInt64
  blockchain : List Hash

def Consumer.setBlockchain (c : Consumer) (blockchain : List Hash) : Consumer :=
  { c with blockchain := blockchain }

def Consumer.detach (c : Consumer) (height : ℕ) : Consumer :=
  c.setBlockchain (c.blockchain.take height)

def Consumer.addBlocks (c : Consumer) (hashes : List Hash) : Consumer :=
  c.setBlockchain (c.blockchain ++ hashes)

def getCommonHistory (localHeight : ℕ) : List Consumer → List Hash × UInt64
  | [] => ([], 0)
  | first :: rest =>
    let shortest := rest.foldl
      (fun s c => if c.blockchain.length < s.blockchain.length then c else s) first
    (getShortHistory shortest.blockchain localHeight,
      rest.foldl (fun t c => min t c.syncStart) first.syncStart)

inductive UpdateConsumersResult where
  | nothingChanged
  | addedNewBlocks
  | errorOccurred
  deriving DecidableEq

variable (onNewBlocks : Consumer → Bool)

def updateConsumers (interval : BlockchainInterval) :
    Bool → List Consumer → UpdateConsumersResult × List Consumer
  | smthChanged, [] => (if smthChanged then .addedNewBlocks else .nothingChanged, [])
  | smthChanged, c :: rest =>
    let result := checkInterval c.blockchain interval
    let detached := if result.detachRequired then c.detach result.detachHeight else c
    if result.hasNewBlocks then
      if onNewBlocks detached then
        let (outcome, others) := updateConsumers interval true rest
        (outcome, detached.addBlocks
          (interval.blocks.drop (result.newBlockHeight - interval.startHeight)) :: others)
      else (.errorOccurred, detached :: rest)
    else
      let (outcome, others) := updateConsumers interval smthChanged rest
      (outcome, detached :: others)

def startBlockchainSync (env : Env) (m : MainChain) (consumers : List Consumer) :
    Except Fault (List Consumer) := do
  let (knownBlocks, timestamp) := getCommonHistory (m.blocks.length - 1) consumers
  if knownBlocks = [] then .ok consumers
  else
    match ← queryBlocksLite env m knownBlocks timestamp with
    | none => .ok consumers
    | some answer => .ok (updateConsumers onNewBlocks
        ⟨answer.startHeight,answer.entries.map BlockShortInfo.blockId⟩ false consumers).2

def synchronize (env : Env) (m : MainChain) : ℕ → List Consumer → Except Fault (List Consumer)
  | 0, consumers => .ok consumers
  | rounds + 1, consumers => do
    synchronize env m rounds (← startBlockchainSync onNewBlocks env m consumers)

end Rounds

def offsetAt (i : ℕ) : ℕ := if i < 10 then i + 1 else 9 + 2 ^ (i - 9)

theorem offsetAt_succ_small (h : i < 10) : offsetAt (i + 1) = offsetAt i + 1 := by
  unfold offsetAt
  rw [if_pos h]
  by_cases hl : i + 1 < 10
  · rw [if_pos hl]
  · have hi : i = 9 := by omega
    subst hi
    rfl

theorem offsetAt_succ_large (h : ¬ i < 10) : offsetAt (i + 1) = offsetAt i + 2 ^ (i - 10) * 2 := by
  unfold offsetAt
  rw [if_neg h, if_neg (by omega), show i + 1 - 9 = i - 10 + 2 by omega,
    show i - 9 = i - 10 + 1 by omega, pow_add, pow_succ]
  omega

theorem offsetAt_strictMono : StrictMono offsetAt := by
  apply strictMono_nat_of_lt_succ
  intro i
  by_cases h : i < 10
  · rw [offsetAt_succ_small h]
    omega
  · rw [offsetAt_succ_large h]
    have hpos : 0 < 2 ^ (i - 10) := Nat.two_pow_pos _
    omega

theorem lt_offsetAt (i : ℕ) : i < offsetAt i := by
  have hpow := Nat.lt_two_pow_self (n := i - 9)
  unfold offsetAt
  split_ifs <;> omega

theorem shortOffsets_succ (size fuel i : ℕ) :
    shortOffsets size (fuel + 1) i (2 ^ (i - 10)) (offsetAt i) =
      if offsetAt i < size then
        offsetAt i :: shortOffsets size fuel (i + 1) (2 ^ (i + 1 - 10)) (offsetAt (i + 1))
      else [] := by
  rw [shortOffsets]
  by_cases h : i < 10
  · rw [if_pos h, offsetAt_succ_small h, show i - 10 = 0 by omega, show i + 1 - 10 = 0 by omega]
  · rw [if_neg h, offsetAt_succ_large h, show i + 1 - 10 = i - 10 + 1 by omega, pow_succ]

theorem mem_shortOffsets {fuel off : ℕ} :
    off ∈ shortOffsets size fuel i (2 ^ (i - 10)) (offsetAt i) ↔
      ∃ j, i ≤ j ∧ j < i + fuel ∧ off = offsetAt j ∧ offsetAt j < size := by
  induction fuel generalizing i with
  | zero =>
    refine iff_of_false (by simp [shortOffsets]) ?_
    rintro ⟨j,hle,hlt,-⟩
    omega
  | succ _ ih =>
    rw [shortOffsets_succ]
    split_ifs with hs
    · rw [List.mem_cons, ih]
      constructor
      · rintro (rfl | ⟨j,hle,hlt,heq,hj⟩)
        · exact ⟨i,le_rfl,by omega,rfl,hs⟩
        · exact ⟨j,by omega,by omega,heq,hj⟩
      · rintro ⟨j,hle,hlt,rfl,hj⟩
        by_cases heq : j = i
        · exact .inl (congrArg offsetAt heq)
        · exact .inr ⟨j,by omega,by omega,rfl,hj⟩
    · refine iff_of_false List.not_mem_nil ?_
      rintro ⟨j,hle,-,-,hj⟩
      have hm := offsetAt_strictMono.monotone hle
      omega

theorem shortOffsets_pairwise (size fuel i : ℕ) :
    (shortOffsets size fuel i (2 ^ (i - 10)) (offsetAt i)).Pairwise (· < ·) := by
  induction fuel generalizing i with
  | zero => exact List.Pairwise.nil
  | succ _ ih =>
    rw [shortOffsets_succ]
    split_ifs
    · refine List.pairwise_cons.mpr ⟨?_,ih (i + 1)⟩
      intro off hofs
      obtain ⟨_,_,-,rfl,-⟩ := mem_shortOffsets.mp hofs
      exact offsetAt_strictMono (by omega)
    · exact List.Pairwise.nil

def historyHeights (size : ℕ) : List ℕ :=
  (shortOffsets size size 0 1 1).map (fun offset => size - offset) ++ [0]

def InHistory (size height : ℕ) : Prop :=
  height = 0 ∨ ∃ i, offsetAt i < size ∧ height = size - offsetAt i

theorem mem_historyHeights : hgt ∈ historyHeights size ↔ InHistory size hgt := by
  have ho : ∀ off, off ∈ shortOffsets size size 0 1 1 ↔
      ∃ j, off = offsetAt j ∧ offsetAt j < size := by
    intro off
    refine (mem_shortOffsets (i := 0)).trans ?_
    constructor
    · rintro ⟨j,-,-,heq,hlt⟩
      exact ⟨j,heq,hlt⟩
    · rintro ⟨j,heq,hlt⟩
      have hj := lt_offsetAt j
      exact ⟨j,by omega,by omega,heq,hlt⟩
  rw [historyHeights, List.mem_append, List.mem_map, List.mem_singleton, or_comm]
  apply or_congr_right
  constructor
  · rintro ⟨off,hofs,rfl⟩
    obtain ⟨i,rfl,hlt⟩ := (ho off).mp hofs
    exact ⟨i,hlt,rfl⟩
  · rintro ⟨i,hlt,rfl⟩
    exact ⟨offsetAt i,(ho _).mpr ⟨i,rfl,hlt⟩,rfl⟩

theorem historyHeights_pairwise (size : ℕ) : (historyHeights size).Pairwise (· > ·) := by
  have ho : ∀ off ∈ shortOffsets size size 0 1 1, off < size := by
    intro off hofs
    obtain ⟨_,-,-,rfl,hlt⟩ := (mem_shortOffsets (i := 0)).mp hofs
    exact hlt
  refine List.pairwise_append.mpr ⟨?_,List.pairwise_singleton _ _,?_⟩
  · rw [List.pairwise_map]
    apply (shortOffsets_pairwise size size 0).imp_of_mem
    intro a b ha hb hlt
    have hs := ho b hb
    omega
  · intro hgt hht last hl
    obtain ⟨off,hofs,rfl⟩ := List.mem_map.mp hht
    rw [List.mem_singleton.mp hl]
    have hs := ho off hofs
    omega

theorem getShortHistory_eq {bc : List Hash} (lh : ℕ) (h : bc ≠ []) : getShortHistory bc lh =
      (historyHeights (min bc.length (lh + 1))).filterMap fun hgt => bc[hgt]? := by
  have hs : min bc.length (lh + 1) ≠ 0 := by
    have hpos := List.length_pos_iff.mpr h
    omega
  unfold getShortHistory historyHeights
  dsimp only
  rw [if_neg hs, List.filterMap_append, List.filterMap_map]
  congr 1
  cases bc with
  | nil => exact absurd rfl h
  | cons _ _ => rfl

variable {l r : List Hash} {P : Block → Prop} {ck : UInt64}

def shared : List Hash → List Hash → ℕ
  | a :: l, b :: r => if a = b then shared l r + 1 else 0
  | _, _ => 0

theorem take_shared (l r : List Hash) : l.take (shared l r) = r.take (shared l r) := by
  induction l generalizing r with
  | nil => rfl
  | cons _ _ ih =>
    cases r with
    | nil => rfl
    | cons _ _ =>
      rw [shared]
      split_ifs with heq
      · rw [List.take_succ_cons, List.take_succ_cons, ih, heq]
      · rfl

theorem shared_le (l r : List Hash) : shared l r ≤ l.length ∧ shared l r ≤ r.length := by
  induction l generalizing r with
  | nil => exact ⟨Nat.zero_le _,Nat.zero_le _⟩
  | cons _ _ ih =>
    cases r with
    | nil => exact ⟨Nat.zero_le _,Nat.zero_le _⟩
    | cons _ r =>
      rw [shared]
      split_ifs
      · exact ⟨Nat.succ_le_succ (ih r).1,Nat.succ_le_succ (ih r).2⟩
      · exact ⟨Nat.zero_le _,Nat.zero_le _⟩

theorem le_shared (h : l.take j = r.take j) (hl : j ≤ l.length) (hr : j ≤ r.length) :
    j ≤ shared l r := by
  induction l generalizing r j with
  | nil => exact hl
  | cons _ _ ih =>
    cases r with
    | nil => exact hr
    | cons _ _ =>
      cases j with
      | zero => exact Nat.zero_le _
      | succ _ =>
        rw [List.take_succ_cons, List.take_succ_cons, List.cons.injEq] at h
        rw [shared, if_pos h.1]
        exact Nat.succ_le_succ (ih h.2 (Nat.le_of_succ_le_succ hl) (Nat.le_of_succ_le_succ hr))

theorem take_of_le_shared (h : j ≤ shared l r) : l.take j = r.take j := by
  have ht := congrArg (List.take j) (take_shared l r)
  rw [List.take_take, List.take_take, Nat.min_eq_left h] at ht
  exact ht

theorem getElem_shared (h : i < shared l r) : l[i]? = r[i]? := by
  rw [← List.getElem?_take_of_lt h, take_shared, List.getElem?_take_of_lt h]

theorem ne_at_shared (hl : shared l r < l.length) (hr : shared l r < r.length) :
    l[shared l r]? ≠ r[shared l r]? := by
  intro heq
  have hn : shared l r + 1 ≤ shared l r := by
    apply le_shared _ hl hr
    rw [List.take_add_one, List.take_add_one, take_shared, heq]
  omega

theorem shared_take (l : List Hash) (j : ℕ) : shared (l.take j) l = min j l.length := by
  apply le_antisymm
  · have hle := shared_le (l.take j) l
    rw [List.length_take] at hle
    exact hle.1
  · apply le_shared
    · rw [List.take_take, Nat.min_eq_left (Nat.min_le_left _ _)]
    · rw [List.length_take]
    · exact Nat.min_le_right _ _

theorem prefix_iff_shared (l r : List Hash) : r <+: l ↔ shared l r = r.length := by
  constructor
  · intro h
    apply le_antisymm (shared_le l r).2
    apply le_shared _ h.length_le le_rfl
    rw [← List.prefix_iff_eq_take.mp h, List.take_length]
  · intro h
    have ht := take_shared l r
    rw [h, List.take_length] at ht
    exact List.prefix_iff_eq_take.mpr ht.symm

section Linked

structure Linked (env : Env) (blocks : List Block) : Prop where
  height : ∀ i b, blocks[i]? = some b → getBlockHeight b = i
  previous : ∀ i b next, blocks[i]? = some b → blocks[i + 1]? = some next →
    next.previousBlockHash = env.getBlockHash b

variable {env : Env} {U : Set Transaction}

theorem getElem?_snoc {l : List Block} {b b' : Block} (h : (l ++ [b])[i]? = some b') :
    l[i]? = some b' ∨ i = l.length ∧ b' = b := by
  rw [List.getElem?_append] at h
  split_ifs at h with hi
  · exact .inl h
  · right
    rw [List.getElem?_singleton] at h
    split_ifs at h with hz
    exact ⟨by omega,(Option.some.inj h).symm⟩

theorem Linked.snoc {bs : List Block} {b : Block} (h : Linked env bs)
    (hht : getBlockHeight b = bs.length)
    (hp : ∀ last, bs.getLast? = some last → b.previousBlockHash = env.getBlockHash last) :
    Linked env (bs ++ [b]) := by
  constructor
  · intro i b' hb'
    rcases getElem?_snoc hb' with hb' | ⟨rfl,rfl⟩
    · exact h.height i b' hb'
    · exact hht
  · intro i b' next hb' hn
    rcases getElem?_snoc hn with hn | ⟨hl,rfl⟩
    · have hi := (List.getElem?_eq_some_iff.mp hn).1
      rw [List.getElem?_append_left (by omega)] at hb'
      exact h.previous i b' next hb' hn
    · apply hp
      rw [List.getElem?_append_left (by omega)] at hb'
      rw [List.getLast?_eq_getElem?, ← hl]
      exact hb'

def Coherent (l r : List Hash) : Prop :=
  ∀ i j id, l[i]? = some id → r[j]? = some id → i = j ∧ l.take i = r.take i

theorem Linked.coherent {V : Set Block} (hV : Set.InjOn env.getBlockHash V) {bs os : List Block}
    (hbl : Linked env bs) (ho : Linked env os) (hl : ∀ b ∈ bs, b ∈ V) (hr : ∀ b ∈ os, b ∈ V) :
    Coherent (bs.map env.getBlockHash) (os.map env.getBlockHash) := by
  have hs : ∀ (i j : ℕ) id, (bs.map env.getBlockHash)[i]? = some id →
      (os.map env.getBlockHash)[j]? = some id →
      i = j ∧ ∃ b, bs[i]? = some b ∧ os[i]? = some b := by
    intro i j id hi hj
    rw [List.getElem?_map] at hi hj
    obtain ⟨b,hb,rfl⟩ := Option.map_eq_some_iff.mp hi
    obtain ⟨b',hb',heq⟩ := Option.map_eq_some_iff.mp hj
    have hs := hV (hr _ (List.mem_of_getElem? hb')) (hl _ (List.mem_of_getElem? hb)) heq
    subst hs
    have hht := hbl.height i b' hb
    rw [ho.height j b' hb'] at hht
    subst hht
    exact ⟨rfl,b',hb,hb'⟩
  intro i j id hi hj
  obtain ⟨rfl,b,hb,hb'⟩ := hs i j id hi hj
  refine ⟨rfl,?_⟩
  clear hi hj
  -- down the chain: equal blocks name equal blocks before them
  induction i generalizing b with
  | zero => rfl
  | succ i ih =>
    have hlt := (List.getElem?_eq_some_iff.mp hb).1
    have hlt' := (List.getElem?_eq_some_iff.mp hb').1
    have hbef : bs[i]? = some (bs.get ⟨i,by omega⟩) := List.getElem?_eq_getElem _
    have hbef' : os[i]? = some (os.get ⟨i,by omega⟩) := List.getElem?_eq_getElem _
    have hp := hbl.previous i _ b hbef hb
    rw [ho.previous i _ b hbef' hb'] at hp
    have heq := hV (hr _ (List.mem_of_getElem? hbef')) (hl _ (List.mem_of_getElem? hbef)) hp
    rw [heq] at hbef'
    rw [List.take_add_one, List.take_add_one, ih _ hbef hbef', List.getElem?_map,
      List.getElem?_map, hbef, hbef']

end Linked

theorem idxOf_of_coherent (hcoh : Coherent l r) (hd : r.Nodup) {id : Hash}
    (hid : l[hgt]? = some id) :
    r.idxOf? id = if hgt < shared l r then some hgt else none := by
  have hht := (List.getElem?_eq_some_iff.mp hid).1
  split_ifs with h
  · rw [getElem_shared h] at hid
    obtain ⟨hlt,rfl⟩ := List.getElem?_eq_some_iff.mp hid
    rw [List.idxOf?_eq_some_iff]
    refine ⟨hlt,rfl,?_⟩
    intro j hj heq
    have hs := (hd.getElem_inj_iff).mp heq
    omega
  · rw [List.idxOf?_eq_none_iff]
    intro hmem
    obtain ⟨j,hj⟩ := List.getElem?_of_mem hmem
    obtain ⟨rfl,ht⟩ := hcoh hgt j id hid hj
    have hle : hgt + 1 ≤ shared l r := by
      apply le_shared _ hht (List.getElem?_eq_some_iff.mp hj).1
      rw [List.take_add_one, List.take_add_one, ht, hid, hj]
    omega

variable {hei : List ℕ} {ts : UInt64}

theorem findSome_heights (hcoh : Coherent l r) (hd : r.Nodup) (hhts : ∀ hgt ∈ hei, hgt < l.length) :
    (hei.filterMap fun hgt => l[hgt]?).findSome? (fun id => r.idxOf? id) =
      hei.find? fun hgt => decide (hgt < shared l r) := by
  induction hei with
  | nil => rfl
  | cons hgt _ ih =>
    have hid : l[hgt]? = some (l.get ⟨hgt,hhts hgt List.mem_cons_self⟩) :=
      List.getElem?_eq_getElem _
    rw [List.filterMap_cons_some hid, List.findSome?_cons,
      idxOf_of_coherent hcoh hd hid, List.find?_cons]
    by_cases h : hgt < shared l r
    · rw [if_pos h, decide_eq_true h]
    · rw [if_neg h, decide_eq_false h]
      exact ih fun o hoth => hhts o (List.mem_cons_of_mem _ hoth)

theorem find_greatest (hf : hei.Pairwise (· > ·)) {bound : ℕ}
    (h : hei.find? (fun hgt => decide (hgt < bound)) = some start) :
    start ∈ hei ∧ start < bound ∧ ∀ hgt ∈ hei, hgt < bound → hgt ≤ start := by
  obtain ⟨hbd,_,_,rfl,hbef⟩ := List.find?_eq_some_iff_append.mp h
  refine ⟨by simp,of_decide_eq_true hbd,?_⟩
  intro hgt hht hlt
  rcases List.mem_append.mp hht with hht | hht
  · have hnot := hbef hgt hht
    rw [decide_eq_true hlt] at hnot
    cases hnot
  · rcases List.mem_cons.mp hht with rfl | hht
    · exact le_rfl
    · have hp := List.pairwise_cons.mp (List.pairwise_append.mp hf).2.1
      exact Nat.le_of_lt (hp.1 hgt hht)

theorem append_interval (hst : start ≤ k) (hk : k ≤ start + cnt) :
    r.take k ++ ((r.drop start).take cnt).drop (k - start) = r.take (start + cnt) := by
  have hd : start + (k - start) = k := by omega
  have hcnt : cnt - (k - start) = start + cnt - k := by omega
  have hsum : k + (start + cnt - k) = start + cnt := by omega
  rw [List.drop_take, List.drop_drop, hd, hcnt, ← List.take_add, hsum]

theorem checkInterval_of_shared (hst : start ≤ shared l r) (hbeh : shared l r < r.length)
    (hl : shared l r < start + cnt) :
    checkInterval l ⟨start,(r.drop start).take cnt⟩ =
      ⟨decide (shared l r < l.length),if shared l r < l.length then shared l r else 0,true,
        shared l r⟩ := by
  have hlen : ((r.drop start).take cnt).length = min cnt (r.length - start) := by
    rw [List.length_take, List.length_drop]
  have hin : ∀ i, start ≤ i → i < start + cnt → ((r.drop start).take cnt)[i - start]? = r[i]? := by
    intro i hi hlt
    rw [List.getElem?_take_of_lt (by omega), List.getElem?_drop, Nat.add_sub_cancel' hi]
  have hle := (shared_le l r).1
  unfold checkInterval
  dsimp only
  rw [hlen]
  by_cases hsh : shared l r < l.length
  · have hf : (List.range' start (min l.length (start + min cnt (r.length - start)) -
        start)).find? (fun i => l[i]? != ((r.drop start).take cnt)[i - start]?) =
        some (shared l r) := by
      rw [List.find?_range'_eq_some]
      refine ⟨?_,?_,?_⟩
      · rw [hin _ hst hl]
        exact bne_iff_ne.mpr (ne_at_shared hsh hbeh)
      · rw [List.mem_range'_1]
        omega
      · intro j hj hlt
        rw [hin j hj (by omega), getElem_shared hlt, bne_self_eq_false]
        rfl
    rw [hf, decide_eq_true hsh, if_pos hsh]
  · have hf : (List.range' start (min l.length (start + min cnt (r.length - start)) -
        start)).find? (fun i => l[i]? != ((r.drop start).take cnt)[i - start]?) = none := by
      rw [List.find?_range'_eq_none]
      intro i hi hlt
      rw [hin i hi (by omega), getElem_shared (r := r) (by omega), bne_self_eq_false]
      rfl
    rw [hf, decide_eq_false hsh, if_neg hsh]
    dsimp only
    rw [if_pos (by omega)]
    congr 1
    omega

theorem checkInterval_within (hl : start + cnt ≤ shared l r) :
    (checkInterval l ⟨start,(r.drop start).take cnt⟩).detachRequired = false ∧
      (checkInterval l ⟨start,(r.drop start).take cnt⟩).hasNewBlocks = false := by
  have hlen : ((r.drop start).take cnt).length = min cnt (r.length - start) := by
    rw [List.length_take, List.length_drop]
  have hle := (shared_le l r).1
  have hf : (List.range' start (min l.length (start + min cnt (r.length - start)) -
      start)).find? (fun i => l[i]? != ((r.drop start).take cnt)[i - start]?) = none := by
    rw [List.find?_range'_eq_none]
    intro i hi hlt
    rw [List.getElem?_take_of_lt (by omega), List.getElem?_drop, Nat.add_sub_cancel' hi,
      getElem_shared (r := r) (by omega), bne_self_eq_false]
    rfl
  unfold checkInterval
  dsimp only
  rw [hlen, hf]
  dsimp only
  rw [if_neg (by omega)]
  exact ⟨rfl,rfl⟩

theorem updateConsumers_one {c : Consumer} (hst : start ≤ shared c.blockchain r)
    (hbeh : shared c.blockchain r < r.length) :
    (updateConsumers (fun _ => true) ⟨start,(r.drop start).take cnt⟩ false [c]).2 =
      [c.setBlockchain (if shared c.blockchain r < start + cnt then r.take (start + cnt)
        else c.blockchain)] := by
  by_cases hl : shared c.blockchain r < start + cnt
  · have hk : (if shared c.blockchain r < c.blockchain.length
        then c.detach (if shared c.blockchain r < c.blockchain.length
          then shared c.blockchain r else 0) else c) =
        c.setBlockchain (r.take (shared c.blockchain r)) := by
      by_cases hsh : shared c.blockchain r < c.blockchain.length
      · rw [if_pos hsh, if_pos hsh, Consumer.detach, take_shared]
      · rw [if_neg hsh, ← take_shared, List.take_of_length_le (Nat.le_of_not_lt hsh)]
        rfl
    rw [if_pos hl, ← append_interval hst hl.le, updateConsumers,
      checkInterval_of_shared hst hbeh hl]
    simp only [decide_eq_true_eq, if_true, hk]
    rfl
  · obtain ⟨hd,hnew⟩ := checkInterval_within (l := c.blockchain) (r := r) (Nat.le_of_not_lt hl)
    simp [updateConsumers, hd, hnew, hl, Consumer.setBlockchain]

section Progress

variable {env : Env} {U : Set Transaction} {m : MainChain}
variable {c : Consumer}

def answerLength (env : Env) (m : MainChain) (timestamp : UInt64) (start : ℕ) : ℕ :=
  shortCount start (fullOffset env m timestamp start) +
    fullCount start (fullOffset env m timestamp start)

theorem two_le_answerLength : 2 ≤ answerLength env m ts start := by
  unfold answerLength fullCount shortCount blocksIdsSynchronizingDefaultCount
    blocksSynchronizingDefaultCount
  omega

structure Behind (m : MainChain) (l : List Hash) : Prop where
  coherent : Coherent l m.blockIndex
  genesis : l[0]? = m.blockIndex[0]?
  missing : shared l m.blockIndex < m.blockIndex.length

theorem Behind.first {l : List Hash} (h : Behind m l) :
    ∃ gen, l[0]? = some gen ∧ m.blockIndex[0]? = some gen := by
  have hpos : 0 < m.blockIndex.length := Nat.lt_of_le_of_lt (Nat.zero_le _) h.missing
  refine ⟨m.blockIndex.get ⟨0,hpos⟩,?_,List.getElem?_eq_getElem _⟩
  rw [h.genesis]
  exact List.getElem?_eq_getElem _

theorem historyHeights_lt (hs : 0 < size) (h : hgt ∈ historyHeights size) : hgt < size := by
  rcases mem_historyHeights.mp h with rfl | ⟨i,hi,rfl⟩
  · exact hs
  · have hpos := lt_offsetAt i
    omega

theorem startBlockchainSync_eq (hU : TxInj env U) (h : Built env U P ck m)
    (hbeh : Behind m c.blockchain) :
    ∃ start, (historyHeights (min c.blockchain.length m.blockIndex.length)).find?
        (fun hgt => decide (hgt < shared c.blockchain m.blockIndex)) = some start ∧
      startBlockchainSync (fun _ => true) env m [c] = .ok [c.setBlockchain
        (if shared c.blockchain m.blockIndex < start + answerLength env m c.syncStart start
          then m.blockIndex.take (start + answerLength env m c.syncStart start)
          else c.blockchain)] := by
  have hsd := h.sound hU
  have hlen : m.blockIndex.length = m.blocks.length := by rw [hsd.index, List.length_map]
  obtain ⟨gen,hfst,hgen⟩ := hbeh.first
  have hne : c.blockchain ≠ [] := by
    intro hnil
    rw [hnil] at hfst
    cases hfst
  have hpos := List.length_pos_iff.mpr hne
  have hm := hbeh.missing
  have hs : min c.blockchain.length (m.blocks.length - 1 + 1) =
      min c.blockchain.length m.blockIndex.length := by omega
  have hkn := getShortHistory_eq (m.blocks.length - 1) hne
  rw [hs] at hkn
  have hl : (getShortHistory c.blockchain (m.blocks.length - 1)).getLast? = some gen := by
    rw [hkn, historyHeights, List.filterMap_append, List.filterMap_cons_some hfst,
      List.filterMap_nil, List.getLast?_append]
    rfl
  obtain ⟨start,hst,hlt⟩ := findSupplement_built hU h hl hgen
  have hfd : (historyHeights (min c.blockchain.length m.blockIndex.length)).find?
      (fun hgt => decide (hgt < shared c.blockchain m.blockIndex)) = some start := by
    rw [← findSome_heights hbeh.coherent hsd.distinct, ← hkn]
    · exact hst
    · intro hgt hht
      have hht := historyHeights_lt (by omega) hht
      omega
  refine ⟨start,hfd,?_⟩
  have hbel := (find_greatest (historyHeights_pairwise _) hfd).2.1
  have ha : queryBlocksLite env m (getShortHistory c.blockchain (m.blocks.length - 1))
      c.syncStart = _ := queryEntries_built hU h hl hgen hst
  have hkn : getShortHistory c.blockchain (m.blocks.length - 1) ≠ [] := by
    intro hnil
    rw [hnil] at hl
    cases hl
  rw [← updateConsumers_one hbel.le hm, startBlockchainSync]
  show (if getShortHistory c.blockchain (m.blocks.length - 1) = [] then _ else _) = _
  rw [if_neg hkn]
  show (queryBlocksLite env m (getShortHistory c.blockchain (m.blocks.length - 1))
    c.syncStart >>= _) = _
  rw [ha]
  show Except.ok _ = _
  rw [answered_ids liteFormat_lawful hsd.index hlt]
  rfl

/-- The search for the first full block went past `height`: it met a block that
is not earlier than the time asked for, and before it an earlier one that is
not below `height`. -/
def LedPast (env : Env) (m : MainChain) (timestamp : UInt64) (start height : ℕ) : Prop :=
  (∃ p, Compared (isEarlier env m timestamp) start (m.blocks.length - start) p ∧
    isEarlier env m timestamp p = false) ∧
  ∃ p, Compared (isEarlier env m timestamp) start (m.blocks.length - start) p ∧
    isEarlier env m timestamp p = true ∧ height ≤ p

/-- The fork is near the highest shared entry of the history: as many blocks
above it as there are full ones in an answer, or as there are ids if enough of
the blocks in between are sent as ids. -/
def Near (env : Env) (m : MainChain) (c : Consumer) : Prop :=
  ∃ height, InHistory (min c.blockchain.length m.blockIndex.length) height ∧
    height < shared c.blockchain m.blockIndex ∧
    (∀ other, InHistory (min c.blockchain.length m.blockIndex.length) other →
      other < shared c.blockchain m.blockIndex → other ≤ height) ∧
    (shared c.blockchain m.blockIndex < height + blocksSynchronizingDefaultCount ∨
      shared c.blockchain m.blockIndex < height + blocksIdsSynchronizingDefaultCount ∧
        LedPast env m c.syncStart height
          (shared c.blockchain m.blockIndex - blocksSynchronizingDefaultCount))

theorem lt_answer_iff (hst : start < m.blocks.length) :
    k < start + answerLength env m ts start ↔ k < start + blocksSynchronizingDefaultCount ∨
        k < start + blocksIdsSynchronizingDefaultCount ∧
          LedPast env m ts start (k - blocksSynchronizingDefaultCount) := by
  have hrg : start ≤ fullOffset env m ts start := (fullOffset_range hst).1
  by_cases hc : k < start + blocksSynchronizingDefaultCount
  · apply iff_of_true _ (.inl hc)
    unfold answerLength fullCount shortCount
    unfold blocksIdsSynchronizingDefaultCount
    unfold blocksSynchronizingDefaultCount at *
    omega
  · have hled : k - blocksSynchronizingDefaultCount < fullOffset env m ts start ↔ _ :=
      lt_fullOffset_iff hst (by omega)
    rw [or_iff_right hc, LedPast, ← hled]
    unfold answerLength fullCount shortCount
    unfold blocksIdsSynchronizingDefaultCount
    unfold blocksSynchronizingDefaultCount at *
    omega

theorem near_iff (hst : start < m.blocks.length)
    (h : (historyHeights (min c.blockchain.length m.blockIndex.length)).find?
      (fun hgt => decide (hgt < shared c.blockchain m.blockIndex)) = some start) :
    Near env m c ↔ shared c.blockchain m.blockIndex <
      start + answerLength env m c.syncStart start := by
  obtain ⟨hmem,hbel,hg⟩ := find_greatest (historyHeights_pairwise _) h
  rw [lt_answer_iff hst]
  constructor
  · rintro ⟨hgt,hht,hlt,hmax,hn⟩
    have heq : hgt = start := le_antisymm (hg hgt (mem_historyHeights.mpr hht) hlt)
      (hmax start (mem_historyHeights.mp hmem) hbel)
    rw [heq] at hn
    exact hn
  · intro hn
    exact ⟨start,mem_historyHeights.mp hmem,hbel,
      fun o hoth => hg o (mem_historyHeights.mpr hoth),hn⟩

theorem behind_take (hd : m.blockIndex.Nodup) (hpos : 0 < j) (hj : j < m.blockIndex.length)
    : Behind m (m.blockIndex.take j) where
  coherent := by
    intro i i' id hi hi'
    have hlt := (List.getElem?_eq_some_iff.mp hi).1
    rw [List.length_take] at hlt
    rw [List.getElem?_take_of_lt (by omega), ← hi'] at hi
    have hs := (List.getElem?_inj (by omega) hd).mp hi
    refine ⟨hs,?_⟩
    rw [List.take_take, Nat.min_eq_left (by omega)]
  genesis := List.getElem?_take_of_lt hpos
  missing := by
    rw [shared_take]
    omega

theorem synchronize_catches_up (hU : TxInj env U) (h : Built env U P ck m) (hpos : 0 < j) : ∃ rs,
    synchronize (fun _ => true) env m rs [c.setBlockchain (m.blockIndex.take j)] =
      .ok [c.setBlockchain m.blockIndex] := by
  induction hl : m.blockIndex.length - j using Nat.strong_induction_on generalizing j with
  | _ left ih =>
    by_cases hj : j < m.blockIndex.length
    · have hbeh := behind_take (h.sound hU).distinct hpos hj
      obtain ⟨start,hfd,hrd⟩ := startBlockchainSync_eq
        (c := c.setBlockchain (m.blockIndex.take j)) hU h hbeh
      have hlen : (m.blockIndex.take j).length = j := by
        rw [List.length_take]
        omega
      have hshd : shared (m.blockIndex.take j) m.blockIndex = j := by
        rw [shared_take]
        omega
      change (historyHeights (min (m.blockIndex.take j).length m.blockIndex.length)).find?
        (fun hgt => decide (hgt < shared (m.blockIndex.take j) m.blockIndex)) = _ at hfd
      rw [hlen, hshd, Nat.min_eq_left hj.le] at hfd
      have hst : j - 1 ≤ start := by
        apply (find_greatest (historyHeights_pairwise j) hfd).2.2 (j - 1) _ (by omega)
        rw [mem_historyHeights]
        by_cases hone : j = 1
        · exact .inl (by omega)
        · exact .inr ⟨0,by show 1 < j; omega,rfl⟩
      have htwo : 2 ≤ answerLength env m c.syncStart start := two_le_answerLength
      change startBlockchainSync (fun _ => true) env m [c.setBlockchain (m.blockIndex.take j)] =
        .ok [c.setBlockchain (if shared (m.blockIndex.take j) m.blockIndex <
          start + answerLength env m c.syncStart start then
            m.blockIndex.take (start + answerLength env m c.syncStart start) else _)] at hrd
      rw [hshd, if_pos (by omega)] at hrd
      obtain ⟨rs,hrds⟩ := ih _ (show m.blockIndex.length -
        (start + answerLength env m c.syncStart start) < left by omega) (by omega) rfl
      refine ⟨rs + 1,?_⟩
      rw [synchronize, hrd]
      exact hrds
    · refine ⟨0,?_⟩
      rw [List.take_of_length_le (Nat.le_of_not_lt hj)]
      rfl

theorem synchronize_fixed (h : startBlockchainSync (fun _ => true) env m [c] = .ok [c]) (rs : ℕ)
    : synchronize (fun _ => true) env m rs [c] = .ok [c] := by
  induction rs with
  | zero => rfl
  | succ _ ih =>
    rw [synchronize, h]
    exact ih

/-- A consumer has block ids from the same genesis block as the node, but not
its whole chain. A round then succeeds. It extends the part that the two share,
and some number of rounds leads to the node's chain, if and only if the fork is
near an entry of the history. -/
theorem round_progress_iff (hU : Set.InjOn env.getObjectHash U) (h : History env U m)
    (hcoherent : Coherent c.blockchain m.blockIndex)
    (hgenesis : c.blockchain[0]? = m.blockIndex[0]?) (hbehind : ¬ m.blockIndex <+: c.blockchain) :
    ∃ c', startBlockchainSync (fun _ => true) env m [c] = .ok [c'] ∧
      (shared c.blockchain m.blockIndex < shared c'.blockchain m.blockIndex ↔ Near env m c) ∧
      ((∃ rounds c'', synchronize (fun _ => true) env m rounds [c] = .ok [c''] ∧
        c''.blockchain = m.blockIndex) ↔ Near env m c) := by
  have hblt := h.built hU
  have hix := (hblt.sound hU).index
  have hm : shared c.blockchain m.blockIndex < m.blockIndex.length := by
    apply lt_of_le_of_ne (shared_le _ _).2
    intro heq
    exact hbehind ((prefix_iff_shared _ _).mpr heq)
  obtain ⟨start,hfd,hrd⟩ := startBlockchainSync_eq hU hblt ⟨hcoherent,hgenesis,hm⟩
  have hbel := (find_greatest (historyHeights_pairwise _) hfd).2.1
  have hlen : m.blockIndex.length = m.blocks.length := by rw [hix, List.length_map]
  have hn : Near env m c ↔ _ := near_iff (by omega) hfd
  refine ⟨_,hrd,?_⟩
  rw [hn]
  by_cases hfar : shared c.blockchain m.blockIndex < start + answerLength env m c.syncStart start
  · rw [if_pos hfar] at hrd ⊢
    refine ⟨iff_of_true ?_ hfar,iff_of_true ?_ hfar⟩
    · show _ < shared (m.blockIndex.take _) m.blockIndex
      rw [shared_take]
      omega
    · obtain ⟨rounds,hrds⟩ := synchronize_catches_up (c := c) hU hblt
        (show 0 < start + answerLength env m c.syncStart start by omega)
      refine ⟨rounds + 1,c.setBlockchain m.blockIndex,?_,rfl⟩
      rw [synchronize, hrd]
      exact hrds
  · rw [if_neg hfar] at hrd ⊢
    refine ⟨iff_of_false (Nat.lt_irrefl _) hfar,iff_of_false ?_ hfar⟩
    rintro ⟨rounds,c',hrds,hr⟩
    rw [synchronize_fixed hrd, Except.ok.injEq, List.cons.injEq] at hrds
    rw [← hrds.1] at hr
    exact hbehind (hr ▸ List.prefix_rfl)

theorem tower_index : (tower 600).blockIndex = List.range' 1 601 := by
  rw [(tower_paced 600 (by decide)).index]
  decide +kernel

theorem tower_isEarlier (h : hgt < 601) : isEarlier towerEnv (tower 600) 0 hgt = true := by
  have ht := (tower_paced 600 (by decide)).times
  have hlt : hgt < (tower 600).blocks.length := by
    rw [(tower_paced 600 (by decide)).length]
    exact h
  have hall : (paced 111 0 601).all
      (fun t => decide (t < 0 - towerEnv.currency.blockFutureTimeLimit)) = true := by
    decide +kernel
  rw [isEarlier, List.getElem?_eq_getElem hlt]
  apply List.all_eq_true.mp hall
  rw [← ht]
  exact List.mem_map_of_mem (List.getElem_mem hlt)

theorem tower_coherent {l : List Hash} (hl : l.take k = (tower 600).blockIndex.take k)
    (hr : ∀ i id, k ≤ i → l[i]? = some id → 601 < id) : Coherent l (tower 600).blockIndex := by
  intro i j id hi hj
  have hid : j < 601 ∧ id = 1 + j := by
    rw [tower_index] at hj
    obtain ⟨hlt,rfl⟩ := List.getElem?_eq_some_iff.mp hj
    rw [List.length_range'] at hlt
    rw [List.getElem_range', Nat.one_mul]
    exact ⟨hlt,rfl⟩
  by_cases hik : i < k
  · have hs : (tower 600).blockIndex[i]? = some id := by
      rw [← List.getElem?_take_of_lt hik, ← hl, List.getElem?_take_of_lt hik, hi]
    have hij : i = j := by
      rw [tower_index] at hs
      obtain ⟨hlt,rfl⟩ := List.getElem?_eq_some_iff.mp hs
      rw [List.getElem_range'] at hid
      have hpl : 1 + 1 * i = 1 + j := hid.2
      omega
    refine ⟨hij,?_⟩
    have ht := congrArg (List.take i) hl
    rw [List.take_take, List.take_take, Nat.min_eq_left hik.le] at ht
    exact ht
  · have hlg := hr i id (Nat.le_of_not_lt hik) hi
    rw [hid.2] at hlg
    have hpl : 601 < 1 + j := hlg
    omega

theorem new_consumer_reaches_node : ∃ rounds c'',
    synchronize (fun _ => true) towerEnv (tower 600) rounds [⟨0,[1]⟩] = .ok [c''] ∧
      c''.blockchain = (tower 600).blockIndex := by
  have hshd : shared [1] (tower 600).blockIndex = 1 := by
    rw [tower_index]
    rfl
  have hcoh : Coherent [1] (tower 600).blockIndex := by
    apply tower_coherent (k := 1)
    · rw [tower_index]
      rfl
    · intro i id hi hid
      have hlt := (List.getElem?_eq_some_iff.mp hid).1
      exact absurd hlt (Nat.not_lt.mpr hi)
  obtain ⟨_,-,-,hr⟩ := round_progress_iff (c := ⟨0,[1]⟩) tower_injOn
    (tower_history 600 (by decide)) hcoh (by rw [tower_index]; rfl)
    (by rw [tower_index]; decide +kernel)
  apply hr.mpr
  refine ⟨0,.inl rfl,?_,?_,.inl ?_⟩
  · rw [hshd]
    decide
  · intro other _ hoth
    rw [hshd] at hoth
    omega
  · rw [hshd]
    decide

def deepFork : List Hash := List.range' 1 300 ++ List.range' 1000001 301

/-- The highest entry of the history that the two share is the block 80, and the
200 blocks of the answer end before the fork: the consumer is stuck. -/
theorem deep_fork_stays : Set.InjOn towerEnv.getObjectHash towerTransactions ∧
    History towerEnv towerTransactions (tower 600) ∧
    Coherent deepFork (tower 600).blockIndex ∧ deepFork[0]? = (tower 600).blockIndex[0]? ∧
    ¬ (tower 600).blockIndex <+: deepFork ∧
    ∀ rounds, synchronize (fun _ => true) towerEnv (tower 600) rounds [⟨0,deepFork⟩] =
      .ok [⟨0,deepFork⟩] := by
  have hhis := tower_history 600 (by decide)
  have hshd : shared deepFork (tower 600).blockIndex = 300 := by
    rw [tower_index]
    decide +kernel
  have hcoh : Coherent deepFork (tower 600).blockIndex := by
    apply tower_coherent (k := 300)
    · rw [tower_index]
      decide +kernel
    · intro i id hi hid
      rw [deepFork, List.getElem?_append_right (by rwa [List.length_range'])] at hid
      obtain ⟨_,rfl⟩ := List.getElem?_eq_some_iff.mp hid
      rw [List.getElem_range']
      exact Nat.lt_of_lt_of_le (by decide) (Nat.le_add_right 1000001 _)
  have hgen : deepFork[0]? = (tower 600).blockIndex[0]? := by
    rw [tower_index]
    decide +kernel
  have hlen : (tower 600).blockIndex.length = 601 := by
    rw [tower_index, List.length_range']
  have hbeh : ¬ (tower 600).blockIndex <+: deepFork := by
    rw [prefix_iff_shared, hshd, hlen]
    decide
  refine ⟨tower_injOn,hhis,hcoh,hgen,hbeh,synchronize_fixed ?_⟩
  obtain ⟨start,hfd,hrd⟩ := startBlockchainSync_eq (c := ⟨0,deepFork⟩) tower_injOn
    (hhis.built tower_injOn) ⟨hcoh,hgen,by rw [hshd, hlen]; decide⟩
  have hst : start = 80 := by
    have hhts : (historyHeights (min deepFork.length 601)).find?
        (fun height => decide (height < 300)) = some 80 := by
      decide +kernel
    rw [hshd, hlen, hhts, Option.some.injEq] at hfd
    exact hfd.symm
  have hb : (tower 600).blocks.length = 601 := (tower_paced 600 (by decide)).length
  have hsh : ¬ 300 < start + answerLength towerEnv (tower 600) 0 start := by
    rw [lt_answer_iff (by omega), hst]
    rintro (hf | ⟨-,⟨p,hp,hl⟩,-⟩)
    · revert hf
      decide
    · have hrg := hp.range
      rw [tower_isEarlier (by omega)] at hl
      cases hl
  rw [hshd, if_neg hsh] at hrd
  exact hrd

end Progress

end Orbis.WalletSync
