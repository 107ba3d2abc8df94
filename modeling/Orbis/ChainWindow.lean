import Orbis.ChainRun

/-!
# The windows behind difficulty and timestamps

A block is judged by a window of the chain below it. For the main chain the
window is cut out of the stored blocks; for an alternative block it is pieced
together from the alternative chain and the main chain below the fork. The
two windows of the difficulty always agree.
-/

set_option autoImplicit false

namespace Orbis.ChainWindow

open FaultState ChainTypes ChainCurrency ChainSemantic ChainBlock ChainNode ChainRun

variable (env : Env)

variable {stop : ℕ}

def timestamps (blocks : List BlockEntry) : List UInt64 := blocks.map fun e => e.bl.timestamp

/-- The blocks whose timestamps and difficulties `getDifficultyForNextBlock`
hands to `nextDifficulty`. -/
def nextWindow (blocks : List BlockEntry) : List BlockEntry :=
  let offset := blocks.length - env.currency.difficultyBlocksCount
  blocks.drop (if offset = 0 then 1 else offset)

def forkHeight (alt : List BlockEntry) (height : ℕ) : ℕ :=
  match alt.head? with
  | none => height
  | some front => front.height

/-- The blocks that `get_next_difficulty_for_alternative_chain` hands to
`nextDifficulty`. -/
def alternativeWindow (blocks alt : List BlockEntry) (height : ℕ) : List BlockEntry :=
  let count := env.currency.difficultyBlocksCount
  if alt.length < count then
    let stop := forkHeight alt height
    let start := stop - min (count - alt.length) stop
    (blocks.take stop).drop (if start = 0 then 1 else start) ++ alt
  else alt.drop (alt.length - count)

theorem getDifficultyForNextBlock_window (bs : List BlockEntry) :
    getDifficultyForNextBlock env bs =
      env.currency.nextDifficulty (timestamps (nextWindow env bs))
        ((nextWindow env bs).map BlockEntry.cumulativeDifficulty) := rfl

variable {ht : ℕ}

theorem getNextDifficulty_window {bs alt : List BlockEntry} :
    getNextDifficultyForAlternativeChain env bs alt ht =
      env.currency.nextDifficulty (timestamps (alternativeWindow env bs alt ht))
        ((alternativeWindow env bs alt ht).map BlockEntry.cumulativeDifficulty) := rfl

def joined (blocks alt : List BlockEntry) (height : ℕ) : List BlockEntry :=
  blocks.take (forkHeight alt height) ++ alt

variable {env}

variable {first : ℕ} {n : Node} {parent : ℕ × UInt64 × List UInt64}

theorem drop_joined {bs alt : List BlockEntry} (hle : stop ≤ bs.length) (hfst : first ≤ stop) :
    (bs.take stop ++ alt).drop first = (bs.take stop).drop first ++ alt := by
  apply List.drop_append_of_le_length
  rw [List.length_take]
  omega

theorem drop_joined_alt {bs alt : List BlockEntry} (hle : stop ≤ bs.length) :
    (bs.take stop ++ alt).drop (stop + first) = alt.drop first := by
  have hlen : (bs.take stop).length = stop := by
    rw [List.length_take]
    omega
  rw [List.drop_append, hlen, Nat.add_sub_cancel_left]
  have hnil : (bs.take stop).drop (stop + first) = [] := by
    apply List.drop_eq_nil_of_le
    omega
  rw [hnil, List.nil_append]

theorem length_joined {bs alt : List BlockEntry} (hle : forkHeight alt ht ≤ bs.length) :
    (joined bs alt ht).length = forkHeight alt ht + alt.length := by
  unfold joined
  rw [List.length_append, List.length_take]
  omega

variable (env) in
theorem alternativeWindow_eq {bs alt : List BlockEntry} (hpos : 0 < forkHeight alt ht)
    (hle : forkHeight alt ht ≤ bs.length) :
    alternativeWindow env bs alt ht = nextWindow env (joined bs alt ht) := by
  unfold nextWindow
  dsimp only
  rw [length_joined hle]
  unfold alternativeWindow joined
  generalize forkHeight alt ht = stop at hpos hle ⊢
  generalize env.currency.difficultyBlocksCount = cnt
  dsimp only
  by_cases hsh : alt.length < cnt
  · have hst : stop - min (cnt - alt.length) stop = stop + alt.length - cnt := by omega
    rw [if_pos hsh, hst]
    symm
    apply drop_joined hle
    split
    · omega
    · omega
  · have hofs : stop + alt.length - cnt = stop + (alt.length - cnt) := by omega
    rw [if_neg hsh, hofs, if_neg (by omega), drop_joined_alt hle]

variable (env) in
def skipped (stop count : ℕ) : ℕ :=
  if env.currency.timestampCheckWindow ≤ count then stop
  else if stop = 1 then 0
  else stop - 1 - (env.currency.timestampCheckWindow - count) + 1

variable (env) in
theorem completeTimestampsVector_joined {bs : List BlockEntry} (alt : List BlockEntry)
    (hpos : 0 < stop) (hle : stop ≤ bs.length) :
    completeTimestampsVector env bs (stop - 1) (timestamps alt.reverse) =
      (timestamps ((bs.take stop ++ alt).drop (skipped env stop alt.length))).reverse := by
  have hlen : (timestamps alt.reverse).length = alt.length := by
    unfold timestamps
    rw [List.length_map, List.length_reverse]
  have hr : timestamps alt.reverse = (timestamps alt).reverse := by
    unfold timestamps
    rw [List.map_reverse]
  unfold completeTimestampsVector skipped
  rw [hlen]
  by_cases hl : env.currency.timestampCheckWindow ≤ alt.length
  · have hd : (bs.take stop ++ alt).drop (stop + 0) = alt.drop 0 := drop_joined_alt hle
    rw [Nat.add_zero, List.drop_zero] at hd
    rw [if_pos hl, if_pos hl, hd, hr]
  · have hin : stop - 1 < bs.length := by omega
    have hs : stop - 1 + 1 = stop := by omega
    have hone : stop - 1 = 0 ↔ stop = 1 := by omega
    rw [if_neg hl, if_neg hl]
    simp only [hin, decide_true, Bool.not_true, Bool.false_eq_true, if_false, hs, hone]
    have hfst : (if stop = 1 then 0
        else stop - 1 - (env.currency.timestampCheckWindow - alt.length) + 1) ≤ stop := by
      split
      · omega
      · omega
    rw [drop_joined hle hfst]
    unfold timestamps
    rw [List.map_append, List.reverse_append, List.map_reverse]

theorem alternativeParent_cases {alt : AltChain}
    (h : alternativeParent env n alt ht = .ok (some parent))
    : (alt = [] ∧ ∃ root, n.main.blocks[ht]? = some root ∧ parent = (ht, root.cumulativeDifficulty,
        completeTimestampsVector env n.main.blocks ht [])) ∨
    ∃ front rest prev root, alt = front :: rest ∧ alt.getLast? = some prev ∧
      front.2.height ≠ 0 ∧ front.2.height < n.main.blocks.length ∧
      n.main.blocks[front.2.height - 1]? = some root ∧
      env.getBlockHash root.bl = front.2.bl.previousBlockHash ∧
      parent = (prev.2.height, prev.2.cumulativeDifficulty,
        completeTimestampsVector env n.main.blocks (front.2.height - 1)
          (timestamps (alt.map Prod.snd).reverse)) := by
  cases alt with
  | nil =>
    simp only [alternativeParent, List.head?_nil] at h
    cases hr : n.main.blocks[ht]? with
    | none =>
      rw [hr] at h
      cases h
    | some root =>
      rw [hr] at h
      cases h
      exact .inl ⟨rfl,root,rfl,rfl⟩
  | cons front rest =>
    obtain ⟨prev,hp⟩ := List.getLast?_isSome.mpr (List.cons_ne_nil front rest)
      |> Option.isSome_iff_exists.mp
    simp only [alternativeParent, List.head?_cons, hp] at h
    by_cases hlen : n.main.blocks.length > front.2.height
    · simp only [hlen, decide_true, Bool.not_true, Bool.false_eq_true, if_false] at h
      by_cases hz : front.2.height = 0
      · rw [if_pos hz] at h
        cases h
      · rw [if_neg hz] at h
        cases hr : n.main.blocks[front.2.height - 1]? with
        | none =>
          rw [hr] at h
          cases h
        | some root =>
          simp only [hr] at h
          by_cases hh : env.getBlockHash root.bl = front.2.bl.previousBlockHash
          · rw [if_neg (not_not.mpr hh)] at h
            cases h
            refine .inr ⟨front,rest,prev,root,rfl,hp,hz,hlen,hr,hh,?_⟩
            simp only [timestamps, ← List.map_reverse, List.map_map, Function.comp_def]
          · rw [if_pos hh] at h
            cases h
    · simp only [hlen, decide_false, Bool.not_false, if_true] at h
      cases h

theorem alternativeParent_fork {alt : AltChain}
    (h : alternativeParent env n alt ht = .ok (some parent))
    : 0 < forkHeight (alt.map Prod.snd) (ht + 1) ∧
    forkHeight (alt.map Prod.snd) (ht + 1) ≤ n.main.blocks.length ∧
    parent.2.2 = (timestamps ((joined n.main.blocks (alt.map Prod.snd) (ht + 1)).drop
      (skipped env (forkHeight (alt.map Prod.snd) (ht + 1)) alt.length))).reverse := by
  rcases alternativeParent_cases h with ⟨rfl,root,hr,rfl⟩ |
    ⟨front,rest,prev,root,rfl,-,hz,hlen,-,-,rfl⟩
  · have hin : ht + 1 ≤ n.main.blocks.length := (List.getElem?_eq_some_iff.mp hr).1
    refine ⟨Nat.succ_pos ht,hin,?_⟩
    exact completeTimestampsVector_joined env [] (Nat.succ_pos ht) hin
  · have hpos : 0 < front.2.height := Nat.pos_of_ne_zero hz
    refine ⟨hpos,hlen.le,?_⟩
    have hcmp := completeTimestampsVector_joined env ((front :: rest).map Prod.snd) hpos hlen.le
    rw [List.length_map] at hcmp
    exact hcmp

def rewarded (n : Node) (nonce parent height : ℕ) (timestamp : UInt64) : Block :=
  mine (UInt32.ofNat nonce) parent timestamp
    (mint (UInt8.ofNat nonce) height (rewardOn n) (.multisignature [] 0)) []

def raised : ℕ → Node
  | 0 => sampleNode
  | count + 1 =>
    let n := raised count
    left (addNewBlock sampleEnv 10000 0
      (rewarded n (count + 2) (count + 1) (count + 1) (111 * UInt64.ofNat count + 1000)) n)

end Orbis.ChainWindow
