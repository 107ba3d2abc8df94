import Orbis.ChainWindow

/-!
# The median of the past timestamps

The two windows of the timestamps do not always agree: the loop that completes
the one of an alternative block stops before the genesis block, and an
alternative chain longer than the window is taken as a whole. The median of an
even number of timestamps is half of a 64-bit sum.
-/

set_option autoImplicit false

namespace Orbis.WindowMedian

open FaultState ChainTypes ChainCurrency ChainSemantic ChainBlock ChainNode ChainRun ChainWindow

variable {env : Env} {l r : List UInt64}

theorem medianValue_perm (h : l.Perm r) : medianValue l = medianValue r := by
  have hlen := h.length_eq
  match l, r with
  | [], [] => rfl
  | [x], [y] => rw [List.singleton_perm_singleton.mp h]
  | x :: y :: l, z :: w :: r =>
    simp only [medianValue]
    rw [insertionSort_perm h, hlen]

def lowerMiddle (v : List UInt64) : UInt64 :=
  (v.insertionSort (· ≤ ·)).getD ((v.length - 1) / 2) 0

def upperMiddle (v : List UInt64) : UInt64 :=
  (v.insertionSort (· ≤ ·)).getD (v.length / 2) 0

theorem medianValue_eq (hl : l ≠ []) : medianValue l =
    if l.length % 2 = 1 then lowerMiddle l else (lowerMiddle l + upperMiddle l) / 2 := by
  match l with
  | [x] => simp [medianValue, lowerMiddle]
  | x :: y :: l =>
    by_cases hodd : (x :: y :: l).length % 2 = 1
    · simp only [medianValue, if_pos hodd, lowerMiddle]
      rw [show ((x :: y :: l).length - 1) / 2 = (x :: y :: l).length / 2 by omega]
    · simp only [medianValue, if_neg hodd, lowerMiddle, upperMiddle]
      rw [show ((x :: y :: l).length - 1) / 2 = (x :: y :: l).length / 2 - 1 by omega]

theorem middles_ordered (hl : l ≠ []) : lowerMiddle l ≤ upperMiddle l := by
  have hpos := List.length_pos_of_ne_nil hl
  rcases Nat.eq_or_lt_of_le (Nat.div_le_div_right (Nat.sub_le l.length 1) : _ ≤ l.length / 2)
    with heq | hlt
  · rw [lowerMiddle, heq, upperMiddle]
    exact UInt64.le_rfl
  · exact getD_insertionSort_mono hlt (by omega)

/-- The median stays between the two middle elements exactly if there is only
one of them or if their sum fits into a word. -/
theorem medianValue_between_iff (hl : l ≠ []) :
    (lowerMiddle l ≤ medianValue l ∧ medianValue l ≤ upperMiddle l) ↔
      l.length % 2 = 1 ∨ (lowerMiddle l).toNat + (upperMiddle l).toNat < 2 ^ 64 := by
  have hle := middles_ordered hl
  rw [medianValue_eq hl]
  by_cases hodd : l.length % 2 = 1
  · rw [if_pos hodd]
    exact ⟨fun _ => .inl hodd,fun _ => ⟨UInt64.le_rfl,hle⟩⟩
  · have hh := (upperMiddle l).toNat_lt
    rw [if_neg hodd]
    simp only [hodd, false_or, UInt64.le_iff_toNat_le, UInt64.toNat_div, UInt64.toNat_add,
      show UInt64.toNat 2 = 2 from rfl] at hle ⊢
    omega

theorem medianValue_between_iff_sample : (lowerMiddle [4, 9] ≤ medianValue [4, 9] ∧
    medianValue [4, 9] ≤ upperMiddle [4, 9]) ↔
      [4, 9].length % 2 = 1 ∨ (lowerMiddle [4, 9]).toNat + (upperMiddle [4, 9]).toNat < 2 ^ 64 :=
  medianValue_between_iff (List.cons_ne_nil _ _)

theorem checkBlockTimestamp_perm (h : l.Perm r) (b : Block) :
    checkBlockTimestamp env l b = checkBlockTimestamp env r b := by
  unfold checkBlockTimestamp
  rw [h.length_eq, medianValue_perm h]

variable (env) in
/-- The test of `check_block_timestamp_main` against the median of the past
timestamps. -/
def pastMedian (blocks : List BlockEntry) (b : Block) : Bool :=
  checkBlockTimestamp env
    (timestamps (blocks.drop (blocks.length - env.currency.timestampCheckWindow))) b

theorem checkBlockTimestamp_full {b : Block} (h : env.currency.timestampCheckWindow ≤ l.length) :
    checkBlockTimestamp env l b = !decide (b.timestamp < medianValue l) := by
  unfold checkBlockTimestamp
  rw [if_neg (Nat.not_lt.mpr h)]

theorem checkBlockTimestamp_short {b : Block} (h : l.length < env.currency.timestampCheckWindow)
    : checkBlockTimestamp env l b = true := by
  unfold checkBlockTimestamp
  rw [if_pos h]

theorem length_timestamps (bs : List BlockEntry) :
    (timestamps bs).length = bs.length := List.length_map _

variable (env) in
/-- The test for an alternative block and the test on the joined chain come
to the same result: an alternative chain longer than the window has its
medians on one side of the timestamp, and a joined chain of exactly the
length of the window, whose genesis block is left out, would have let the
block pass. -/
structure SameSide (blocks alt : List BlockEntry) (height : ℕ) (b : Block) : Prop where
  overlong : env.currency.timestampCheckWindow < alt.length →
    (b.timestamp < medianValue (timestamps alt) ↔ b.timestamp < medianValue
      (timestamps (alt.drop (alt.length - env.currency.timestampCheckWindow))))
  exact : 1 < forkHeight alt height →
    forkHeight alt height + alt.length = env.currency.timestampCheckWindow →
    medianValue (timestamps (joined blocks alt height)) ≤ b.timestamp

section Compare

variable {bs alt : List BlockEntry} {hgt : ℕ} {b : Block}
  (hpos : 0 < forkHeight alt hgt) (hle : forkHeight alt hgt ≤ bs.length)

include hpos hle

theorem skipped_eq_iff (hl : alt.length ≤ env.currency.timestampCheckWindow) :
    skipped env (forkHeight alt hgt) alt.length =
        (joined bs alt hgt).length - env.currency.timestampCheckWindow ↔ forkHeight alt hgt = 1 ∨
        env.currency.timestampCheckWindow < forkHeight alt hgt + alt.length := by
  rw [length_joined hle]
  unfold skipped
  generalize env.currency.timestampCheckWindow = window at hl ⊢
  split
  · omega
  · split
    · omega
    · omega

theorem pastMedian_within (hone : forkHeight alt hgt ≠ 1)
    (hw : forkHeight alt hgt + alt.length ≤ env.currency.timestampCheckWindow) :
    checkBlockTimestamp env (timestamps ((joined bs alt hgt).drop
        (skipped env (forkHeight alt hgt) alt.length))) b =
      pastMedian env (joined bs alt hgt) b ↔ SameSide env bs alt hgt b := by
  have hlen := length_joined hle
  have hs : skipped env (forkHeight alt hgt) alt.length = 1 := by
    unfold skipped
    rw [if_neg (by omega), if_neg hone]
    omega
  have hz : (joined bs alt hgt).length - env.currency.timestampCheckWindow = 0 := by
    omega
  have hsh : checkBlockTimestamp env (timestamps ((joined bs alt hgt).drop 1)) b =
      true := by
    apply checkBlockTimestamp_short
    rw [length_timestamps, List.length_drop]
    omega
  unfold pastMedian
  rw [hs, hz, List.drop_zero, hsh]
  by_cases hex : forkHeight alt hgt + alt.length = env.currency.timestampCheckWindow
  · rw [checkBlockTimestamp_full (by rw [length_timestamps]; omega)]
    constructor
    · intro ht
      refine ⟨fun ho => by omega,fun _ _ => ?_⟩
      simpa using ht.symm
    · intro hsi
      simpa using hsi.exact (by omega) hex
  · rw [checkBlockTimestamp_short (by rw [length_timestamps]; omega)]
    exact ⟨fun _ => ⟨fun ho => by omega,fun _ heq => absurd heq hex⟩,fun _ => rfl⟩

omit hpos in
theorem pastMedian_overlong (ho : env.currency.timestampCheckWindow < alt.length) :
    checkBlockTimestamp env (timestamps ((joined bs alt hgt).drop
        (skipped env (forkHeight alt hgt) alt.length))) b =
      pastMedian env (joined bs alt hgt) b ↔ SameSide env bs alt hgt b := by
  have hlen := length_joined hle
  have hs : skipped env (forkHeight alt hgt) alt.length = forkHeight alt hgt + 0 := by
    unfold skipped
    rw [if_pos ho.le, Nat.add_zero]
  have hofs : (joined bs alt hgt).length - env.currency.timestampCheckWindow =
      forkHeight alt hgt + (alt.length - env.currency.timestampCheckWindow) := by omega
  unfold pastMedian
  rw [hs, hofs]
  unfold joined
  rw [drop_joined_alt hle, drop_joined_alt hle, List.drop_zero,
    checkBlockTimestamp_full (by rw [length_timestamps]; omega),
    checkBlockTimestamp_full (by rw [length_timestamps, List.length_drop]; omega)]
  have hb : ∀ p q : Prop, [Decidable p] → [Decidable q] →
      ((!decide p) = (!decide q) ↔ (p ↔ q)) := by
    intro p q _ _
    rw [Bool.not_inj_iff, decide_eq_decide]
  rw [hb]
  exact ⟨fun hsa => ⟨fun _ => hsa,fun _ hex => by omega⟩,fun hsi => hsi.overlong ho⟩

variable (env b) in
theorem pastMedian_agrees_iff : checkBlockTimestamp env (timestamps ((joined bs alt hgt).drop
        (skipped env (forkHeight alt hgt) alt.length))) b =
      pastMedian env (joined bs alt hgt) b ↔ SameSide env bs alt hgt b := by
  by_cases hl : alt.length ≤ env.currency.timestampCheckWindow
  · by_cases hs : forkHeight alt hgt = 1 ∨
        env.currency.timestampCheckWindow < forkHeight alt hgt + alt.length
    · unfold pastMedian
      rw [(skipped_eq_iff hpos hle hl).mpr hs]
      refine ⟨fun _ => ⟨fun ho => ?_,fun hone hex => ?_⟩,fun _ => rfl⟩
      · omega
      · omega
    · rw [not_or, Nat.not_lt] at hs
      exact pastMedian_within hpos hle hs.1 hs.2
  · exact pastMedian_overlong hle (Nat.not_le.mp hl)

variable (env) in
theorem window_perm_iff : (timestamps ((joined bs alt hgt).drop
        (skipped env (forkHeight alt hgt) alt.length))).Perm (timestamps ((joined bs alt hgt).drop
        ((joined bs alt hgt).length - env.currency.timestampCheckWindow))) ↔
      alt.length ≤ env.currency.timestampCheckWindow ∧ (forkHeight alt hgt = 1 ∨
        env.currency.timestampCheckWindow < forkHeight alt hgt + alt.length) := by
  constructor
  · intro hp
    have hs := hp.length_eq
    rw [length_timestamps, length_timestamps, List.length_drop, List.length_drop,
      length_joined hle] at hs
    unfold skipped at hs
    split at hs
    · omega
    · split at hs
      · omega
      · omega
  · intro hc
    rw [(skipped_eq_iff hpos hle hc.1).mpr hc.2]

end Compare

/-- The median test of an alternative block agrees with the one on the joined
chain exactly if the timestamp is on the same side of both medians, and it
looks at the same timestamps exactly if the alternative chain is at most as
long as the window and the genesis block is not wrongly left out. -/
theorem alternative_median_agrees_iff {n : Node} {alt : AltChain} {height : ℕ}
    {parent : ℕ × UInt64 × List UInt64} (h : alternativeParent env n alt height = .ok (some parent))
    (b : Block) : (checkBlockTimestamp env parent.2.2 b =
        pastMedian env (joined n.main.blocks (alt.map Prod.snd) (height + 1)) b ↔
      SameSide env n.main.blocks (alt.map Prod.snd) (height + 1) b) ∧
    (parent.2.2.Perm (timestamps ((joined n.main.blocks (alt.map Prod.snd) (height + 1)).drop
        ((joined n.main.blocks (alt.map Prod.snd) (height + 1)).length -
          env.currency.timestampCheckWindow))) ↔ alt.length ≤ env.currency.timestampCheckWindow ∧
        (forkHeight (alt.map Prod.snd) (height + 1) = 1 ∨ env.currency.timestampCheckWindow <
            forkHeight (alt.map Prod.snd) (height + 1) + alt.length)) := by
  obtain ⟨hpos,hle,ht⟩ := alternativeParent_fork h
  have hp := List.reverse_perm (timestamps ((joined n.main.blocks (alt.map Prod.snd)
    (height + 1)).drop (skipped env (forkHeight (alt.map Prod.snd) (height + 1)) alt.length)))
  have ha := pastMedian_agrees_iff env b hpos hle
  have hw := window_perm_iff env hpos hle
  rw [List.length_map] at ha hw
  rw [ht, checkBlockTimestamp_perm hp b]
  exact ⟨ha,(hp.congr_left _).trans hw⟩

/-- The alternative block on the genesis block and the genesis block itself are
what the test for a block on top of it looks at. -/
theorem alternative_median_agrees_iff_sample : ∃ entry parent,
    sampleFork.alternativeChains.lookup 3 = some entry ∧
    alternativeParent sampleEnv sampleFork [(3, entry)] 1 = .ok (some parent) ∧
    parent.2.2.Perm (timestamps ((joined sampleFork.main.blocks [entry] 2).drop
      ((joined sampleFork.main.blocks [entry] 2).length -
        sampleEnv.currency.timestampCheckWindow))) := by
  have hpar : sampleFork.alternativeChains.lookup 3 = some (alternativeEntry forkBlock 1 2) ∧
      alternativeParent sampleEnv sampleFork [(3, alternativeEntry forkBlock 1 2)] 1 =
        .ok (some (1, 2, [1000, 0])) := by
    decide +kernel
  have hlooks := (alternative_median_agrees_iff hpar.2 overtakingBlock).2.mpr
    ⟨by decide,.inl (by decide +kernel)⟩
  exact ⟨_,_,hpar.1,hpar.2,hlooks⟩

def alternativeTimestamps (env : Env) (b : Block) (n : Node) :
    Except Fault (Option (List UInt64)) := do
  let alt ← alternativeChain n.alternativeChains n.alternativeChains.keys.card b.previousBlockHash
  let parent ← alternativeParent env n alt (n.main.blockIndex.idxOf b.previousBlockHash)
  .ok (parent.map fun p => p.2.2)

def staleBlock : Block := rewarded (raised 60) 100 60 60 5

/-- On a chain of 61 blocks a stale block at height 60 is stored as an
alternative: 59 of the 60 blocks below it are looked at, and that is too few
for the test. On top of the main chain those 60 blocks would refuse it. -/
theorem stale_block_accepted :
    (value (addNewBlock sampleEnv 10000 0 staleBlock (raised 60))).map Prod.fst = some true ∧
    ∃ parent, alternativeParent sampleEnv (raised 60) [] 59 = .ok (some parent) ∧
      checkBlockTimestamp sampleEnv parent.2.2 staleBlock = true ∧
      pastMedian sampleEnv (joined (raised 60).main.blocks [] 60) staleBlock = false := by
  have hrun : (value (addNewBlock sampleEnv 10000 0 staleBlock (raised 60))).map Prod.fst =
        some true ∧
      alternativeParent sampleEnv (raised 60) [] 59 =
        .ok (some (59, 60, completeTimestampsVector sampleEnv (raised 60).main.blocks 59 [])) ∧
      checkBlockTimestamp sampleEnv
        (completeTimestampsVector sampleEnv (raised 60).main.blocks 59 []) staleBlock = true ∧
      pastMedian sampleEnv (joined (raised 60).main.blocks [] 60) staleBlock = false := by
    decide +kernel
  -- the timestamps stay abstract, so that nothing is evaluated again
  generalize completeTimestampsVector sampleEnv (raised 60).main.blocks 59 [] = times at hrun
  exact ⟨hrun.1,(59, 60, times),hrun.2.1,hrun.2.2.1,hrun.2.2.2⟩

def farDated : ℕ → Node
  | 0 => raised 61
  | count + 1 =>
    left (addNewBlock sampleEnv 10000 0 (rewarded sampleNode (count + 101)
      (if count = 0 then 30 else count + 100) (count + 30) (2 ^ 63)) (farDated count))

def fallenBlock : Block := rewarded sampleNode 132 131 61 5

/-- The two middle timestamps of an alternative block add up beyond 64 bits:
their median is below both, and a block in the far past of its chain passes
the test. -/
theorem median_of_alternative_wraps :
    (value (addNewBlock sampleEnv 10000 0 fallenBlock (farDated 31))).map Prod.fst = some true ∧
    ∃ v, alternativeTimestamps sampleEnv fallenBlock (farDated 31) = .ok (some v) ∧
      lowerMiddle v = 2 ^ 63 ∧ medianValue v = 0 := by
  have hrun : (value (addNewBlock sampleEnv 10000 0 fallenBlock (farDated 31))).map Prod.fst =
        some true ∧
      alternativeTimestamps sampleEnv fallenBlock (farDated 31) =
        .ok (some (completeTimestampsVector sampleEnv (farDated 31).main.blocks 29
          (List.replicate 31 (2 ^ 63)))) ∧
      lowerMiddle (completeTimestampsVector sampleEnv (farDated 31).main.blocks 29
        (List.replicate 31 (2 ^ 63))) = 2 ^ 63 ∧
      medianValue (completeTimestampsVector sampleEnv (farDated 31).main.blocks 29
        (List.replicate 31 (2 ^ 63))) = 0 := by
    decide +kernel
  generalize completeTimestampsVector sampleEnv (farDated 31).main.blocks 29
    (List.replicate 31 (2 ^ 63)) = times at hrun
  exact ⟨hrun.1,times,hrun.2⟩

end Orbis.WindowMedian
