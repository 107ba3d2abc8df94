import Orbis.ChainHeaviest
import Orbis.WalletSync

/-!
# The sparse chain that a node sends

A node tells another which blocks it has by naming blocks at distances that
double from a block down to the genesis block. On an alternative chain the
distances start again where it leaves the main chain. The other node looks for
the first block that it knows. Whatever the two chains are, this block is at
most twice as far away as their last common one.
-/

set_option autoImplicit false

namespace Orbis.ChainSparse

open FaultState ChainTypes ChainSemantic ChainNode ChainOutcome ChainRun
open ChainWindow ChainTrace ChainCharted ChainHeaviest ChainQuery WalletSync

variable {top : ℕ} {heights : List ℕ}

def doublings (limit : ℕ) : ℕ → ℕ → List ℕ
  | 0, _ => []
  | fuel + 1, i => if i ≤ limit then i :: doublings limit fuel (i * 2) else []

def sampled (limit : ℕ) : List ℕ := doublings limit limit 1

theorem mem_doublings {limit fuel j x : ℕ} :
    x ∈ doublings limit fuel (2 ^ j) ↔ ∃ k, j ≤ k ∧ k < j + fuel ∧ x = 2 ^ k ∧ 2 ^ k ≤ limit := by
  induction fuel generalizing j with
  | zero =>
    apply iff_of_false List.not_mem_nil
    rintro ⟨k,hj,hk,-⟩
    omega
  | succ _ ih =>
    rw [doublings]
    split_ifs with hl
    · rw [List.mem_cons, ← Nat.pow_succ, ih]
      constructor
      · rintro (rfl | ⟨k,hj,hk,hx⟩)
        · exact ⟨j,le_rfl,by omega,rfl,hl⟩
        · exact ⟨k,by omega,by omega,hx⟩
      · rintro ⟨k,hj,hk,hx,hle⟩
        by_cases heq : k = j
        · exact .inl (heq ▸ hx)
        · exact .inr ⟨k,by omega,by omega,hx,hle⟩
    · apply iff_of_false List.not_mem_nil
      rintro ⟨k,hj,hk,-,hle⟩
      exact hl ((Nat.pow_le_pow_right (by decide) hj).trans hle)

theorem mem_sampled {limit x : ℕ} : x ∈ sampled limit ↔ ∃ k, x = 2 ^ k ∧ 2 ^ k ≤ limit := by
  refine (mem_doublings (j := 0)).trans ?_
  constructor
  · rintro ⟨k,-,-,hx,hle⟩
    exact ⟨k,hx,hle⟩
  · rintro ⟨k,hx,hle⟩
    have hk : k < 2 ^ k := Nat.lt_two_pow_self
    exact ⟨k,by omega,by omega,hx,hle⟩

theorem doublings_pairwise (limit fuel j : ℕ) :
    (doublings limit fuel (2 ^ j)).Pairwise (· < ·) := by
  induction fuel generalizing j with
  | zero => exact List.Pairwise.nil
  | succ _ ih =>
    rw [doublings]
    split_ifs with hl
    · rw [← Nat.pow_succ]
      refine List.pairwise_cons.mpr ⟨?_,ih (j + 1)⟩
      intro x hx
      obtain ⟨_,hj,-,rfl,-⟩ := mem_doublings.mp hx
      exact Nat.pow_lt_pow_right (by decide) hj
    · exact List.Pairwise.nil

theorem sampled_pairwise (limit : ℕ) : (sampled limit).Pairwise (· < ·) :=
  doublings_pairwise limit limit 0

theorem exists_doubling (d : ℕ) : ∃ j, d < 2 ^ j ∧ 2 ^ j ≤ 2 * d + 1 := by
  induction d with
  | zero => exact ⟨0,by decide,by decide⟩
  | succ d ih =>
    obtain ⟨j,_,_⟩ := ih
    by_cases h : d + 1 < 2 ^ j
    · exact ⟨j,h,by omega⟩
    · refine ⟨j + 1,?_,?_⟩ <;> rw [Nat.pow_succ] <;> omega

structure Sampling (top : ℕ) (heights : List ℕ) : Prop where
  falling : heights.Pairwise (· > ·)
  genesis : 0 ∈ heights
  below : ∀ x ∈ heights, x < top
  dense : ∀ d < top, ∃ x ∈ heights, x + d < top ∧ top ≤ x + 2 * d + 1

theorem Sampling.found (h : Sampling top heights) {k : ℕ} (hpos : 0 < k) (hk : k ≤ top) : ∃ ht,
    heights.find? (fun ht => decide (ht < k)) = some ht ∧ ht < k ∧
      top ≤ ht + 2 * (top - k) + 1 := by
  have hs : (heights.find? fun ht => decide (ht < k)).isSome := by
    rw [List.find?_isSome]
    exact ⟨0,h.genesis,decide_eq_true hpos⟩
  obtain ⟨ht,hfd⟩ := Option.isSome_iff_exists.mp hs
  obtain ⟨-,hlt,hg⟩ := find_greatest h.falling hfd
  obtain ⟨x,hx,_,_⟩ := h.dense (top - k) (by omega)
  have hle := hg x hx (by omega)
  exact ⟨ht,hfd,hlt,by omega⟩

theorem getLast_of_falling {l : List ℕ} (h : l.Pairwise (· > ·)) (hz : 0 ∈ l) :
    l.getLast? = some 0 := by
  rcases List.eq_nil_or_concat l with rfl | ⟨pre,last,rfl⟩
  · cases hz
  · rw [List.concat_eq_append] at h hz ⊢
    rw [List.getLast?_concat]
    rcases List.mem_append.mp hz with hz | hz
    · have hlt := (List.pairwise_append.mp h).2.2 0 hz last (by simp)
      omega
    · rw [List.mem_singleton.mp hz]

theorem sampled_falling (base limit : ℕ) (h : limit ≤ base) :
    ((sampled limit).map fun i => base - i).Pairwise (· > ·) := by
  rw [List.pairwise_map]
  apply (sampled_pairwise limit).imp_of_mem
  intro a b _ hb hlt
  obtain ⟨_,rfl,_⟩ := mem_sampled.mp hb
  omega

def sparseHeights (top : ℕ) : List ℕ :=
  let heights := (sampled top).map fun i => top - i
  if heights.getLast? = some 0 then heights else heights ++ [0]

theorem sampling_main (hpos : 0 < top) : Sampling top (sparseHeights top) := by
  have hbel : ∀ x ∈ (sampled top).map fun i => top - i, x < top := by
    intro x hx
    obtain ⟨i,hi,rfl⟩ := List.mem_map.mp hx
    obtain ⟨k,rfl,-⟩ := mem_sampled.mp hi
    have := Nat.two_pow_pos k
    omega
  have hsub : ∀ x ∈ (sampled top).map fun i => top - i, x ∈ sparseHeights top := by
    intro x hx
    unfold sparseHeights
    dsimp only
    split_ifs
    · exact hx
    · exact List.mem_append_left _ hx
  have hgen : 0 ∈ sparseHeights top := by
    unfold sparseHeights
    dsimp only
    split_ifs with hl
    · exact List.mem_of_getLast? hl
    · exact List.mem_append_right _ List.mem_cons_self
  constructor
  · unfold sparseHeights
    dsimp only
    split_ifs with hl
    · exact sampled_falling top top le_rfl
    · refine List.pairwise_append.mpr
        ⟨sampled_falling top top le_rfl,List.pairwise_singleton _ _,?_⟩
      intro x hx last hl'
      rw [List.mem_singleton.mp hl']
      apply Nat.pos_of_ne_zero
      rintro rfl
      exact hl (getLast_of_falling (sampled_falling top top le_rfl) hx)
  · exact hgen
  · intro x hx
    unfold sparseHeights at hx
    dsimp only at hx
    split_ifs at hx
    · exact hbel x hx
    · rcases List.mem_append.mp hx with hx | hx
      · exact hbel x hx
      · rw [List.mem_singleton.mp hx]
        exact hpos
  · intro d hd
    obtain ⟨j,_,_⟩ := exists_doubling d
    by_cases hj : 2 ^ j ≤ top
    · refine ⟨top - 2 ^ j,hsub _ ?_,by omega,by omega⟩
      exact List.mem_map_of_mem (mem_sampled.mpr ⟨j,rfl,hj⟩)
    · exact ⟨0,hgen,by omega,by omega⟩

theorem Sampling.extend {cnt : ℕ} (h : Sampling top heights) :
    Sampling (top + cnt) (((sampled cnt).map fun i => top + cnt - i) ++ heights) where
  falling := by
    refine List.pairwise_append.mpr ⟨sampled_falling _ cnt (by omega),h.falling,?_⟩
    intro x hx y hy
    obtain ⟨i,hi,rfl⟩ := List.mem_map.mp hx
    obtain ⟨k,rfl,hk⟩ := mem_sampled.mp hi
    have hy := h.below y hy
    omega
  genesis := List.mem_append_right _ h.genesis
  below := by
    intro x hx
    rcases List.mem_append.mp hx with hx | hx
    · obtain ⟨i,hi,rfl⟩ := List.mem_map.mp hx
      obtain ⟨k,rfl,hk⟩ := mem_sampled.mp hi
      have := Nat.two_pow_pos k
      omega
    · have hx := h.below x hx
      omega
  dense := by
    intro d hd
    by_cases hcnt : d < cnt
    · obtain ⟨j,_,_⟩ := exists_doubling d
      by_cases hj : 2 ^ j ≤ cnt
      · refine ⟨top + cnt - 2 ^ j,List.mem_append_left _ ?_,by omega,by omega⟩
        exact List.mem_map_of_mem (mem_sampled.mpr ⟨j,rfl,hj⟩)
      · -- the next one is the block that the upper part stands on
        obtain ⟨x,hx,hbel,hn⟩ := h.dense 0 (Nat.pos_of_ne_zero fun hz => by
          have := h.below 0 h.genesis
          omega)
        exact ⟨x,List.mem_append_right _ hx,by omega,by omega⟩
    · obtain ⟨x,hx,hbel,hn⟩ := h.dense (d - cnt) (by omega)
      exact ⟨x,List.mem_append_right _ hx,by omega,by omega⟩

section Sparse

def buildSparseChain (index : List Hash) (startBlockId : Hash) : Except Fault (List Hash) :=
  match index.idxOf? startBlockId with
  | none => .error .aborted
  | some startBlockHeight =>
    let sparseChainEnd := startBlockHeight + 1
    let result := (sampled sparseChainEnd).filterMap fun i => index[sparseChainEnd - i]?
    .ok (if result.getLast? ≠ index[0]? then result ++ index.take 1 else result)

def doBuildSparseChain (n : Node) (startBlockId : Hash) : Except Fault (List Hash) :=
  if n.main.blockIndex = [] then .error .aborted
  else if startBlockId ∈ n.main.blockIndex then buildSparseChain n.main.blockIndex startBlockId
  else do
    let alt ← alternativeChain n.alternativeChains n.alternativeChains.keys.card startBlockId
    match alt.head? with
    | none => .error .aborted
    | some (_, lowest) =>
      -- the walk lists the blocks from the given one down
      let alternatives := (alt.map Prod.fst).reverse
      let sparseMainChain ← buildSparseChain n.main.blockIndex lowest.bl.previousBlockHash
      .ok (((sampled alternatives.length).filterMap fun i => alternatives[i - 1]?) ++
        sparseMainChain)

inductive Path (n : Node) (startBlockId : Hash) : List Hash → Prop
  | main {height : ℕ} (found : n.main.blockIndex.idxOf? startBlockId = some height) :
      Path n startBlockId (n.main.blockIndex.take (height + 1))
  | alternative {alt : AltChain} {lowest : Hash × BlockEntry} {height : ℕ}
      (absent : startBlockId ∉ n.main.blockIndex)
      (walk : alternativeChain n.alternativeChains n.alternativeChains.keys.card startBlockId =
        .ok (lowest :: alt))
      (found : n.main.blockIndex.idxOf? lowest.2.bl.previousBlockHash = some height) :
      Path n startBlockId (n.main.blockIndex.take (height + 1) ++ (lowest :: alt).map Prod.fst)

variable {idx : List Hash} {startBlockId : Hash} {hgt : ℕ}

theorem buildSparseChain_eq (hd : idx.Nodup) (h : idx.idxOf? startBlockId = some hgt) :
    buildSparseChain idx startBlockId =
      .ok ((sparseHeights (hgt + 1)).filterMap fun x => idx[x]?) := by
  obtain ⟨_,-⟩ := List.idxOf?_eq_some_iff.mp h
  have hhts : ∀ x ∈ (sampled (hgt + 1)).map fun i => hgt + 1 - i, x < idx.length := by
    intro x hx
    obtain ⟨i,hi,rfl⟩ := List.mem_map.mp hx
    obtain ⟨k,rfl,-⟩ := mem_sampled.mp hi
    have := Nat.two_pow_pos k
    omega
  have hla : ∀ l : List ℕ, l ≠ [] → (∀ x ∈ l, x < idx.length) →
      ((l.filterMap fun x => idx[x]?).getLast? = idx[0]? ↔ l.getLast? = some 0) := by
    intro l hne hl
    rcases List.eq_nil_or_concat l with rfl | ⟨pre,last,rfl⟩
    · exact absurd rfl hne
    · rw [List.concat_eq_append] at hl ⊢
      have hin := hl last (by simp)
      have hs : idx[last]? = some (idx.get ⟨last,hin⟩) := List.getElem?_eq_getElem _
      rw [List.filterMap_append, List.filterMap_cons_some hs, List.filterMap_nil,
        List.getLast?_concat, List.getLast?_concat, ← hs, Option.some.injEq]
      exact List.getElem?_inj hin hd
  have hne : ((sampled (hgt + 1)).map fun i => hgt + 1 - i) ≠ [] := by
    apply List.ne_nil_of_mem
    exact List.mem_map_of_mem (mem_sampled.mpr ⟨0,rfl,by omega⟩)
  have hfst : idx[0]? = some (idx.get ⟨0,by omega⟩) := List.getElem?_eq_getElem _
  have hmap : ((sampled (hgt + 1)).filterMap fun i => idx[hgt + 1 - i]?) =
      ((sampled (hgt + 1)).map fun i => hgt + 1 - i).filterMap fun x => idx[x]? := by
    rw [List.filterMap_map]
    rfl
  have ht : idx.take 1 = [0].filterMap fun x => idx[x]? := by
    rw [List.filterMap_cons_some hfst, List.take_one, List.head?_eq_getElem?, hfst]
    rfl
  rw [buildSparseChain, h]
  dsimp only
  rw [hmap, sparseHeights]
  by_cases hz : ((sampled (hgt + 1)).map fun i => hgt + 1 - i).getLast? = some 0
  · rw [if_pos hz, if_neg (not_not.mpr ((hla _ hne hhts).mpr hz))]
  · rw [if_neg hz, if_pos (fun hsa => hz ((hla _ hne hhts).mp hsa)), ht, ← List.filterMap_append]

variable {n : Node} {path : List Hash}

theorem filterMap_take (h : ∀ x ∈ heights, x < top) (htop : top ≤ idx.length) (above : List Hash)
    : (heights.filterMap fun x => idx[x]?) =
      heights.filterMap fun x => (idx.take top ++ above)[x]? := by
  apply List.filterMap_congr
  intro x hx
  have hlt := h x hx
  rw [List.getElem?_append_left (by rw [List.length_take]; omega), List.getElem?_take_of_lt hlt]

theorem doBuildSparseChain_path (hd : n.main.blockIndex.Nodup) (h : Path n startBlockId path)
    : ∃ heights, Sampling path.length heights ∧
    doBuildSparseChain n startBlockId = .ok (heights.filterMap fun x => path[x]?) := by
  cases h with
  | @main hgt found =>
    obtain ⟨hlt,hid,-⟩ := List.idxOf?_eq_some_iff.mp found
    have hlen : (n.main.blockIndex.take (hgt + 1)).length = hgt + 1 := by
      rw [List.length_take]
      omega
    have hsmp := sampling_main (Nat.succ_pos hgt)
    refine ⟨sparseHeights (hgt + 1),by rwa [hlen],?_⟩
    rw [doBuildSparseChain, if_neg (List.ne_nil_of_length_pos (by omega)),
      if_pos (hid ▸ List.getElem_mem hlt), buildSparseChain_eq hd found,
      filterMap_take hsmp.below hlt [], List.append_nil]
  | @alternative alt lowest hgt absent walk found =>
    obtain ⟨hlt,hid,-⟩ := List.idxOf?_eq_some_iff.mp found
    have hlen : (n.main.blockIndex.take (hgt + 1)).length = hgt + 1 := by
      rw [List.length_take]
      omega
    have hsmp := sampling_main (Nat.succ_pos hgt)
    refine ⟨_,by
      rw [List.length_append, hlen]
      exact hsmp.extend,?_⟩
    rw [doBuildSparseChain, if_neg (List.ne_nil_of_length_pos (by omega)), if_neg absent, walk]
    show (buildSparseChain n.main.blockIndex lowest.2.bl.previousBlockHash >>= _) = _
    rw [buildSparseChain_eq hd found, List.filterMap_append, ← filterMap_take hsmp.below hlt]
    have halt : ((sampled ((lowest :: alt).map Prod.fst).length).map fun i =>
        hgt + 1 + ((lowest :: alt).map Prod.fst).length - i).filterMap
          (fun x => (n.main.blockIndex.take (hgt + 1) ++ (lowest :: alt).map Prod.fst)[x]?) =
        (sampled ((lowest :: alt).map Prod.fst).reverse.length).filterMap fun i =>
          ((lowest :: alt).map Prod.fst).reverse[i - 1]? := by
      rw [List.filterMap_map, List.length_reverse]
      apply List.filterMap_congr
      intro i hi
      obtain ⟨k,rfl,_⟩ := mem_sampled.mp hi
      have hpos := Nat.two_pow_pos k
      show (_ ++ _)[hgt + 1 + ((lowest :: alt).map Prod.fst).length - 2 ^ k]? = _
      rw [List.getElem?_append_right (by omega), hlen, List.getElem?_reverse (by omega)]
      congr 1
      omega
    rw [halt]
    rfl

end Sparse

section Supplement

variable {env : Env} {P : Block → Prop} {n : Node} {startBlockId : Hash} {path : List Hash}

theorem linked_of_traced {bs : List BlockEntry} (h : Traced env P bs) :
    Linked env (bs.map BlockEntry.bl) := by
  induction h with
  | nil => exact ⟨by simp,by simp⟩
  | @snoc _ e _ _ prev coinbase _ _ ih =>
    rw [List.map_append]
    apply ih.snoc
    · rw [List.length_map]
      exact coinbase
    · intro last hl
      show e.bl.previousBlockHash = _
      rw [List.getLast?_map] at hl
      obtain ⟨_,htop,rfl⟩ := Option.map_eq_some_iff.mp hl
      rw [prev, tailHash, htop]

theorem traced_coherent (hinj : BlockInj env P) {l r : List BlockEntry} (hl : Traced env P l)
    (hr : Traced env P r) :
    Coherent (l.map fun e => env.getBlockHash e.bl) (r.map fun e => env.getBlockHash e.bl) := by
  have hin : ∀ {bs : List BlockEntry}, Traced env P bs →
      ∀ b ∈ bs.map BlockEntry.bl, b ∈ {b | P b} := by
    intro bs h b hb
    obtain ⟨e,he,rfl⟩ := List.mem_map.mp hb
    exact h.allowed e he
  have h := (linked_of_traced hl).coherent hinj (linked_of_traced hr) (hin hl) (hin hr)
  rw [List.map_map, List.map_map] at h
  exact h

theorem traced_distinct (hinj : BlockInj env P) {l : List BlockEntry}
    (hl : Traced env P l) : (l.map fun e => env.getBlockHash e.bl).Nodup := by
  rw [List.nodup_iff_injective_get]
  intro i j hij
  have hi := List.getElem?_eq_getElem i.isLt
  have hj := List.getElem?_eq_getElem j.isLt
  apply Fin.ext
  exact (traced_coherent hinj hl hl i j _ hi (hj.trans (congrArg some hij.symm))).1

theorem hangs_of_found (hinj : BlockInj env P) (hn : Charted env P n) (alt : AltChain)
    {lowest : Hash × BlockEntry} {ht : ℕ} (hl : n.alternativeChains.lookup lowest.1 = some lowest.2)
    (hfd : n.main.blockIndex.idxOf? lowest.2.bl.previousBlockHash = some ht) :
    lowest.2.height = ht + 1 ∧ Hangs env n.main.blocks (lowest :: alt) := by
  obtain ⟨-,lower,hne,htr⟩ := hn.alternatives _ _ hl
  obtain ⟨-,hp,-,hht,-⟩ := htr.last
  obtain ⟨below,root,rfl⟩ := (List.eq_nil_or_concat lower).resolve_left hne
  rw [List.concat_eq_append] at hp hht htr
  rw [tailHash_append] at hp
  obtain ⟨hlt,hid,-⟩ := List.idxOf?_eq_some_iff.mp hfd
  have hm : n.main.blockIndex[ht]? = some lowest.2.bl.previousBlockHash := by
    rw [List.getElem?_eq_getElem hlt, hid]
  rw [hn.main.index] at hm
  have hbel : ((below ++ [root]).map fun e => env.getBlockHash e.bl)[below.length]? =
      some lowest.2.bl.previousBlockHash := by
    simp [hp]
  obtain ⟨rfl,-⟩ := traced_coherent hinj htr.of_append hn.main.traced below.length ht _ hbel hm
  have hlen : lowest.2.height = below.length + 1 := by
    rw [hht, List.length_append, List.length_singleton]
  refine ⟨hlen,?_⟩
  intro front hfrt
  obtain rfl := Option.some.inj hfrt
  refine ⟨by omega,?_⟩
  rw [List.getElem?_map] at hm
  obtain ⟨e,he,hh⟩ := Option.map_eq_some_iff.mp hm
  exact ⟨e,by rw [hlen, Nat.add_sub_cancel, he],hh⟩

theorem path_traced (hinj : BlockInj env P) (hn : Charted env P n)
    (h : Path n startBlockId path) : ∃ bs, Traced env P bs ∧
    path = bs.map fun e => env.getBlockHash e.bl := by
  cases h with
  | @main ht _ =>
    refine ⟨n.main.blocks.take (ht + 1),hn.main.traced.take _,?_⟩
    rw [hn.main.index, List.map_take]
  | @alternative alt lowest _ _ walk found =>
    have hmem := mem_alternativeChain walk
    have hl := hmem lowest List.mem_cons_self
    obtain ⟨hht,ha⟩ := hangs_of_found hinj hn alt hl found
    have htr := (hn.joined_traced hinj walk (List.cons_ne_nil _ _) ha 0).1
    refine ⟨_,htr,?_⟩
    have hids : (lowest :: alt).map Prod.fst =
        ((lowest :: alt).map Prod.snd).map fun e => env.getBlockHash e.bl := by
      rw [List.map_map]
      apply List.map_congr_left
      intro en hent
      exact (hn.alternatives _ _ (hmem en hent)).1
    rw [joined, List.map_append, ← hids, List.map_take, hn.main.index, ← hht]
    rfl

/-- From any block of a node, on the main chain or on an alternative chain
over it, the sparse chain shows a second node with the same genesis block a
common block, at most twice as far from the start as the last common one. -/
theorem supplement_near (hinj : Set.InjOn env.getBlockHash {b | P b}) {U : Set Transaction}
    {strict : Prop} {clock clock' : UInt64} {other : Node} (hn : Run env U P strict clock n)
    (hother : Run env U P strict clock' other)
    (hgenesis : n.main.blockIndex[0]? = other.main.blockIndex[0]?)
    (hpath : Path n startBlockId path) : ∃ sparse height,
    doBuildSparseChain n startBlockId = .ok sparse ∧
      findSupplement other.main sparse = some height ∧ height < shared path other.main.blockIndex ∧
      path.length - 1 - height ≤ 2 * (path.length - shared path other.main.blockIndex) := by
  have hc := charted_of_run hinj hn
  have hm := (charted_of_run hinj hother).main
  have hd : n.main.blockIndex.Nodup := by
    rw [hc.main.index]
    exact traced_distinct hinj hc.main.traced
  obtain ⟨heights,hsmp,hs⟩ := doBuildSparseChain_path hd hpath
  have hsu : findSupplement other.main (heights.filterMap fun x => path[x]?) =
      heights.find? fun height => decide (height < shared path other.main.blockIndex) := by
    obtain ⟨_,htr,hpath⟩ := path_traced hinj hc hpath
    rw [findSupplement, hm.index]
    apply findSome_heights _ (traced_distinct hinj hm.traced) hsmp.below
    rw [hpath]
    exact traced_coherent hinj htr hm.traced
  have hfst : path[0]? = n.main.blockIndex[0]? := by
    cases hpath with
    | main _ => exact List.getElem?_take_of_lt (Nat.succ_pos _)
    | @alternative _ _ _ _ _ found =>
      have hlt := (List.idxOf?_eq_some_iff.mp found).1
      rw [List.getElem?_append_left (by rw [List.length_take]; omega)]
      exact List.getElem?_take_of_lt (Nat.succ_pos _)
  have hpos : 0 < path.length := hsmp.below 0 hsmp.genesis
  have hshd : 1 ≤ shared path other.main.blockIndex := by
    rw [hgenesis] at hfst
    have hh := List.getElem?_eq_getElem hpos
    apply le_shared _ hpos (List.getElem?_eq_some_iff.mp (hfst.symm.trans hh)).1
    rw [List.take_one, List.take_one, List.head?_eq_getElem?, List.head?_eq_getElem?, hfst]
  obtain ⟨height,hfd,hlt,_⟩ := hsmp.found hshd (shared_le _ _).1
  exact ⟨_,height,hs,hsu.trans hfd,hlt,by omega⟩

def sampleMain : Node := left (addNewBlock sampleEnv 10000 1 firstBlock sampleNode)

def sampleForked : Node := left (addNewBlock sampleEnv 10000 1 forkBlock sampleMain)

def isForkWalk : Except Fault AltChain → Bool
  | .ok [x] => decide (x.1 = 3 ∧ x.2.bl.previousBlockHash = 1)
  | _ => false

theorem supplement_near_sample : ∃ sparse height, doBuildSparseChain sampleForked 3 = .ok sparse ∧
      findSupplement sampleMain.main sparse = some height ∧
      height < shared [1, 3] sampleMain.main.blockIndex ∧
      2 - 1 - height ≤ 2 * (2 - shared [1, 3] sampleMain.main.blockIndex) := by
  have hm : Run sampleEnv Set.univ ForkBlocks False 10000 sampleMain :=
    .block (sampleNode_run (.inl rfl)) (by decide) UInt64.le_rfl (.inr (.inl rfl))
      (eq_ok_of_value (show _ = some (true, .added) from by decide +kernel)) False.elim
  have hf : Run sampleEnv Set.univ ForkBlocks False 10000 sampleForked :=
    .block hm UInt64.le_rfl UInt64.le_rfl (.inr (.inr (.inl rfl)))
      (eq_ok_of_value (show _ = some (true, .initial) from by decide +kernel)) False.elim
  have hw : isForkWalk (alternativeChain sampleForked.alternativeChains
      sampleForked.alternativeChains.keys.card 3) = true := by decide +kernel
  unfold isForkWalk at hw
  split at hw
  · rename_i lowest walk
    obtain ⟨hid,hpr⟩ := of_decide_eq_true hw
    have hfd : sampleForked.main.blockIndex.idxOf? lowest.2.bl.previousBlockHash = some 0 := by
      rw [hpr]
      decide +kernel
    have hp : Path sampleForked 3 (sampleForked.main.blockIndex.take 1 ++ [lowest.1]) :=
      .alternative (by decide +kernel) walk hfd
    have ht : sampleForked.main.blockIndex.take 1 = [1] := by decide +kernel
    rw [hid, ht] at hp
    exact supplement_near forkBlocks_injective hf hm (by decide +kernel) hp
  · cases hw

end Supplement

end Orbis.ChainSparse
