import Orbis.ChainCharted
import Orbis.ChainLedger

/-!
# The main chain never gets lighter

Without checkpoints a change of chains starts only for an alternative chain
with more work than the main chain, and the work that was compared is the
work the chain has once it is pushed. The blocks that were cut off have less
work than the new top, so storing them as alternatives starts no second
change. A failed change puts the old blocks back and with them the old work,
as long as the rollback reports success and the sums of difficulties stay
below `2 ^ 64`. An exception on the way leaves the node without the blocks
that were cut off.
-/

set_option autoImplicit false

namespace Orbis.ChainHeaviest

open FaultState ChainTypes ChainSemantic ChainBlock ChainPool ChainSound ChainNode ChainOutcome
open ChainRun ChainWindow ChainTrace ChainCharted ChainLedger

variable (env : Env) (now : UInt64)

variable {n n' : Node} {suc : Bool}
variable {readd : Handler}
variable {restore : List Block → ℕ → EStateM Fault Node Bool} {bs : List BlockEntry} {b : Block}
variable {fuel : ℕ} {bvc : BlockVerificationContext}

/-- `handleAlternativeBlock` over the way a failed change is taken back. -/
def handleWith (restore : List Block → ℕ → EStateM Fault Node Bool) :
    ℕ → Block → Hash → EStateM Fault Node (Bool × BlockVerificationContext)
  | 0, b, id => blockWith env (switchWith env now restore fun _ => throw .outOfFuel) b id
  | fuel + 1, b, id => blockWith env (switchWith env now restore
      fun old => handleWith restore fuel old (env.getBlockHash old)) b id

/-- `addNewBlock` over the way a failed change is taken back. -/
def addWith (restore : List Block → ℕ → EStateM Fault Node Bool) (fuel : ℕ) (bl : Block) :
    EStateM Fault Node (Bool × BlockVerificationContext) := do
  let n ← get
  let id := env.getBlockHash bl
  if bl.majorVersion > 1 then pure (false, .failed)
  else if haveBlock id n then
    pure (false, { BlockVerificationContext.initial with alreadyExists := true })
  else if bl.previousBlockHash ≠ n.main.getTailId then
    handleWith env now restore fuel bl id
  else pushPoolBlock env now bl

theorem handleWith_rollback (fuel : ℕ) :
    handleWith env now (rollbackBlockchainSwitching env now) fuel =
      handleAlternativeBlock env now fuel := by
  induction fuel with
  | zero => rfl
  | succ _ ih =>
    funext b id
    unfold handleWith handleAlternativeBlock
    rw [ih]
    rfl

theorem addWith_rollback (fuel : ℕ) (b : Block) :
    addWith env now (rollbackBlockchainSwitching env now) fuel b = addNewBlock env now fuel b := by
  unfold addWith
  rw [handleWith_rollback]
  rfl

def watch (originalChain : List Block) (rollbackHeight : ℕ) : EStateM Fault Node Bool := do
  if ← rollbackBlockchainSwitching env now originalChain rollbackHeight then pure true
  else throw .undefined

variable {env now} {e : BlockEntry}

theorem watch_ok {orig : List Block} {ht : ℕ} (h : watch env now orig ht n = .ok suc n') :
    suc = true ∧ rollbackBlockchainSwitching env now orig ht n = .ok true n' := by
  unfold watch at h
  obtain ⟨restored,_,hr,h⟩ := bind_ok.mp h
  cases restored with
  | false => cases h
  | true =>
    cases h
    exact ⟨rfl,hr⟩

def Follows {α : Type} (x y : EStateM Fault Node α) : Prop :=
  ∀ n a n', x n = .ok a n' → y n = .ok a n'

variable {α : Type} {readd' : Handler} {restore' : List Block → ℕ → EStateM Fault Node Bool}
  {switch : AltChain → Bool → EStateM Fault Node Bool} {l r : List BlockEntry} {id : Hash}
  {result : Bool × BlockVerificationContext} {accepted : Bool}

theorem follows_refl {x : EStateM Fault Node α} : Follows x x := fun _ _ _ h => h

theorem follows_bind {β : Type} {x y : EStateM Fault Node α} {f g : α → EStateM Fault Node β}
    (hx : Follows x y) (hf : ∀ a, Follows (f a) (g a)) : Follows (x >>= f) (y >>= g) := by
  intro n b n' h
  obtain ⟨a,u,hfst,hr⟩ := bind_ok.mp h
  exact bind_ok.mpr ⟨a,u,hx n a u hfst,hf a u b n' hr⟩

theorem watch_follows (orig : List Block) (ht : ℕ) : Follows (watch env now orig ht)
      (rollbackBlockchainSwitching env now orig ht) := by
  intro n suc n' h
  obtain ⟨rfl,hr⟩ := watch_ok h
  exact hr

theorem readdAll_follows (hr : ∀ b, Follows (readd b) (readd' b)) (l : List Block) :
    Follows (readdAll readd l) (readdAll readd' l) := by
  induction l with
  | nil => exact follows_refl
  | cons b _ ih =>
    apply follows_bind (hr b)
    rintro ⟨accepted,_⟩
    cases accepted with
    | false => exact follows_refl
    | true => exact ih

theorem switchWith_follows (hrst : ∀ l ht, Follows (restore l ht) (restore' l ht))
    (hr : ∀ b, Follows (readd b) (readd' b)) (alt : AltChain) (dc : Bool) :
    Follows (switchWith env now restore readd alt dc)
      (switchWith env now restore' readd' alt dc) := by
  cases alt with
  | nil => exact follows_refl
  | cons _ _ =>
    simp only [switchWith]
    apply follows_bind follows_refl
    intro n
    split
    · exact follows_refl
    · apply follows_bind follows_refl
      intro dis
      split
      · exact follows_refl
      · apply follows_bind follows_refl
        intro refused
        split
        · exact follows_bind (hrst _ _) fun _ => follows_refl
        · cases dc with
          | true => exact follows_refl
          | false =>
            apply follows_bind (readdAll_follows hr dis)
            intro readded
            cases readded with
            | true => exact follows_refl
            | false => exact follows_bind (hrst _ _) fun _ => follows_refl

theorem blockWith_follows {switch' : AltChain → Bool → EStateM Fault Node Bool}
    (hsw : ∀ alt dc, Follows (switch alt dc) (switch' alt dc)) (b : Block)
    (id : Hash) : Follows (blockWith env switch b id) (blockWith env switch' b id) := by
  apply follows_bind follows_refl
  intro verdict
  cases verdict with
  | refuse _ => exact follows_refl
  | orphan => exact follows_refl
  | store _ _ _ =>
    apply follows_bind follows_refl
    intro _
    apply follows_bind follows_refl
    intro n
    split
    · exact follows_bind (hsw _ _) fun _ => follows_refl
    · split
      · exact follows_refl
      · split
        · exact follows_bind (hsw _ _) fun _ => follows_refl
        · exact follows_refl

theorem handleWith_follows (hrst : ∀ l ht, Follows (restore l ht) (restore' l ht)) (fuel : ℕ)
    (b : Block) (id : Hash) :
    Follows (handleWith env now restore fuel b id) (handleWith env now restore' fuel b id) := by
  induction fuel generalizing b id with
  | zero =>
    exact blockWith_follows (switchWith_follows hrst fun _ => follows_refl) b id
  | succ _ ih => exact blockWith_follows (switchWith_follows hrst fun _ => ih _ _) b id

theorem addWith_watch_follows (fuel : ℕ) (b : Block) :
    Follows (addWith env now (watch env now) fuel b) (addNewBlock env now fuel b) := by
  rw [← addWith_rollback]
  apply follows_bind follows_refl
  intro n
  dsimp only
  split
  · exact follows_refl
  · split
    · exact follows_refl
    · split
      · exact handleWith_follows watch_follows fuel b _
      · exact follows_refl

def workSum (env : Env) (blocks : List BlockEntry) : ℕ :=
  ((List.range blocks.length).map fun i =>
    (getDifficultyForNextBlock env (blocks.take i)).toNat).sum

theorem workSum_append : workSum env (bs ++ [e]) =
      workSum env bs + (getDifficultyForNextBlock env bs).toNat := by
  have hs : ∀ i ∈ List.range bs.length, (getDifficultyForNextBlock env ((bs ++ [e]).take i)).toNat =
        (getDifficultyForNextBlock env (bs.take i)).toNat := by
    intro i hi
    rw [List.take_append_of_le_length (List.mem_range.mp hi).le]
  unfold workSum
  rw [List.length_append, List.length_singleton, List.range_succ, List.map_append,
    List.sum_append, List.map_congr_left hs]
  simp

variable (env) in
theorem workSum_le_append (l r : List BlockEntry) : workSum env l ≤ workSum env (l ++ r) := by
  induction r using List.reverseRecOn with
  | nil => rw [List.append_nil]
  | append_singleton _ _ _ =>
    rw [← List.append_assoc, workSum_append]
    omega

variable {P : Block → Prop}

theorem topWork_toNat (h : Traced env P bs) (hsum : workSum env bs < 2 ^ 64)
    : (topWork bs).toNat = workSum env bs := by
  induction h with
  | nil => rfl
  | @snoc _ _ _ _ _ _ _ work ih =>
    rw [workSum_append] at hsum ⊢
    rw [topWork_append, work, UInt64.toNat_add, ih (by omega)]
    omega

theorem topWork_le_append (h : Traced env P (l ++ r))
    (hsum : workSum env (l ++ r) < 2 ^ 64) : topWork l ≤ topWork (l ++ r) := by
  have hle := workSum_le_append env l r
  rw [UInt64.le_iff_toNat_le, topWork_toNat h hsum, topWork_toNat h.of_append (by omega)]
  exact hle

theorem work_le_top (h : Traced env P bs) (hsum : workSum env bs < 2 ^ 64) {i : ℕ}
    (he : bs[i]? = some e) : e.cumulativeDifficulty ≤ topWork bs := by
  have ht := take_of_getElem he
  have hspl : bs = bs.take (i + 1) ++ bs.drop (i + 1) := (List.take_append_drop (i + 1) bs).symm
  have hle : topWork (bs.take (i + 1)) ≤ topWork (bs.take (i + 1) ++ bs.drop (i + 1)) := by
    apply topWork_le_append
    · rwa [← hspl]
    · rwa [← hspl]
  rw [← hspl, ht, topWork_append] at hle
  exact hle

theorem isCheckpoint_of_none (hnone : env.checkpoints.points = []) (ht : ℕ) :
    env.checkpoints.isCheckpoint ht = false := by
  unfold Checkpoints.isCheckpoint
  rw [hnone]
  rfl

theorem getLast?_topWork {last : BlockEntry} (h : bs.getLast? = some last)
    : topWork bs = last.cumulativeDifficulty := by
  unfold topWork
  rw [h]

section Calls

variable (hinj : BlockInj env P)

include hinj

theorem stored_work (hn : Charted env P n) (hb : P b) {alt : AltChain}
    {par : ℕ × UInt64 × List UInt64} (hex : Examined env n b id alt par) {lower : List BlockEntry}
    (htr : Traced env P (lower ++ [e])) (hbl : e.bl = b) :
    (storedEntry env n b alt par).cumulativeDifficulty = e.cumulativeDifficulty := by
  have hsto := hn.stored_traced hinj hex hb
  have hl : (under n b alt ++ [storedEntry env n b alt par]).getLast?.map BlockEntry.bl =
      (lower ++ [e]).getLast?.map BlockEntry.bl := by
    rw [List.getLast?_concat, List.getLast?_concat, Option.map_some, Option.map_some, hbl]
    rfl
  have hw := topWork_congr (hsto.unique hinj htr hl)
  rwa [topWork_append, topWork_append] at hw

variable (hnone : env.checkpoints.points = [])

include hnone

theorem blockWith_quiet (hn : Charted env P n) (hb : P b)
    (hold : ∃ lower e, Traced env P (lower ++ [e]) ∧ e.bl = b ∧
      e.cumulativeDifficulty < topWork n.main.blocks)
    (h : blockWith env switch b (env.getBlockHash b) n = .ok result n') :
    n'.main = n.main ∧ Charted env P n' := by
  obtain ⟨_,_⟩ := result
  rcases blockWith_cases h with ⟨-,rfl,-⟩ | ⟨-,rfl,-⟩ | ⟨_,_,_,hexamine,hs⟩
  · exact ⟨rfl,hn⟩
  · exact ⟨rfl,hn⟩
  · obtain ⟨_,hex,rfl,rfl⟩ := examineAlternative_store hexamine
    rcases storeWith_cases hs with ⟨-,-,-,rfl,-⟩ | ⟨-,-,hm⟩
    · exact ⟨rfl,hn.insert_examined hinj hb hex⟩
    · obtain ⟨_,hla,hl⟩ := hm (isCheckpoint_of_none hnone _)
      obtain ⟨lower,e,htr,hbl,hbel⟩ := hold
      rw [stored_work hinj hn hb hex htr hbl, ← getLast?_topWork hla] at hl
      exact absurd hbel (UInt64.lt_asymm hl)

theorem handleWith_quiet (hn : Charted env P n) (hb : P b)
    (hold : ∃ lower e, Traced env P (lower ++ [e]) ∧ e.bl = b ∧
      e.cumulativeDifficulty < topWork n.main.blocks)
    (h : handleWith env now restore fuel b (env.getBlockHash b) n = .ok result n') :
    n'.main = n.main ∧ Charted env P n' := by
  cases fuel with
  | zero => exact blockWith_quiet hinj hnone hn hb hold h
  | succ _ => exact blockWith_quiet hinj hnone hn hb hold h

theorem readdAll_quiet (hre : ∀ b n a n', readd b n = .ok a n' → ∃ fuel,
      handleWith env now restore fuel b (env.getBlockHash b) n = .ok a n') {l : List Block}
    (hn : Charted env P n) (hl : ∀ b ∈ l, P b ∧ ∃ lower e, Traced env P (lower ++ [e]) ∧ e.bl = b ∧
      e.cumulativeDifficulty < topWork n.main.blocks) (h : readdAll readd l n = .ok suc n') :
    n'.main = n.main ∧ Charted env P n' := by
  induction l generalizing n with
  | nil =>
    cases h
    exact ⟨rfl,hn⟩
  | cons b rest ih =>
    simp only [readdAll, bind_ok] at h
    obtain ⟨⟨accepted,_⟩,u,hc,hr⟩ := h
    obtain ⟨hb,hold⟩ := hl b (by simp)
    obtain ⟨fuel,hh⟩ := hre b n _ u hc
    obtain ⟨hm,hu⟩ := handleWith_quiet hinj hnone hn hb hold hh
    cases accepted with
    | false =>
      cases hr
      exact ⟨hm,hu⟩
    | true =>
      have hl' : ∀ o ∈ rest, P o ∧ ∃ lower e, Traced env P (lower ++ [e]) ∧
          e.bl = o ∧ e.cumulativeDifficulty < topWork u.main.blocks := by
        rw [hm]
        exact fun o hoth => hl o (List.mem_cons_of_mem _ hoth)
      obtain ⟨hm',hn'⟩ := ih hu hl' hr
      exact ⟨hm'.trans hm,hn'⟩

omit hnone in
theorem topWork_of_blocks (hl : Traced env P l) (hr : Traced env P r)
    (h : l.map BlockEntry.bl = r.map BlockEntry.bl) : topWork l = topWork r := by
  apply topWork_congr
  apply hl.unique hinj hr
  rw [← List.getLast?_map, ← List.getLast?_map, h]

omit hnone in
theorem rollback_work {w : Node} {split : ℕ} (hn : MainTraced env P n.main)
    (hw : MainTraced env P w.main) (ht : w.main.blocks.take split = n.main.blocks.take split)
    (h : rollbackBlockchainSwitching env now ((n.main.blocks.drop split).map BlockEntry.bl) split
      w = .ok true n') : topWork n'.main.blocks = topWork n.main.blocks := by
  have hal : ∀ b ∈ (n.main.blocks.drop split).map BlockEntry.bl, P b := by
    intro b hb
    obtain ⟨e,he,rfl⟩ := List.mem_map.mp hb
    exact hn.traced.allowed e (List.mem_of_mem_drop he)
  obtain ⟨hn',-,_,hbl,hnew⟩ := rollback_traced hw hal h
  apply topWork_of_blocks hinj hn'.traced hn.traced
  rw [hbl, ht, List.map_append, hnew rfl, ← List.map_append, List.take_append_drop]

theorem switch_work (hre : ∀ b n a n', readd b n = .ok a n' → ∃ fuel,
      handleWith env now (watch env now) fuel b (env.getBlockHash b) n = .ok a n')
    (hn : Charted env P n) {lower : AltChain} {en : BlockEntry}
    (halt : ∀ o ∈ lower ++ [(id, en)], P o.2.bl)
    (htr : ∀ front, (lower ++ [(id, en)]).head? = some front → Traced env P
      (n.main.blocks.take front.2.height ++ (lower ++ [(id, en)]).map Prod.snd))
    (hl : topWork n.main.blocks < en.cumulativeDifficulty)
    (hsum : workSum env n.main.blocks < 2 ^ 64)
    (h : switchWith env now (watch env now) readd (lower ++ [(id, en)]) false n =
      .ok suc n') : (suc = true → topWork n'.main.blocks = en.cumulativeDifficulty) ∧
      (suc = false → topWork n'.main.blocks = topWork n.main.blocks) := by
  rcases switchWith_connected hn.main halt h with ⟨rfl,rfl,-⟩ | ⟨split,drp,refused,v,hc,hend⟩
  · exact ⟨fun ht => Bool.noConfusion ht,fun _ => rfl⟩
  obtain ⟨front,_,hfrt,rfl⟩ := hc.front
  have hj := htr front (by rw [hfrt]; rfl)
  have hv : Charted env P v := hn.moved hc.main hc.alternatives
  have hdrp := hc.dropped_eq
  subst hdrp
  -- once every block is connected, the top has the work of the new block
  have htop : refused = [] → topWork v.main.blocks = en.cumulativeDifficulty := by
    intro hnil
    obtain ⟨_,new,hd,hbl,hnew⟩ := hc.blocks
    rw [hnil, List.append_nil] at hd
    have hwo := topWork_of_blocks hinj hv.main.traced hj (by
      rw [hbl, List.map_append, List.map_append, hnew, hd, List.map_map]
      rfl)
    rw [hwo, List.map_append, List.map_singleton, ← List.append_assoc, topWork_append]
  have hq : refused = [] → ∀ {readded : Bool} {w : Node},
      readdAll readd ((n.main.blocks.drop front.2.height).map BlockEntry.bl) v =
        .ok readded w → w.main = v.main ∧ Charted env P w := by
    intro hnil readded w hrdd
    apply readdAll_quiet hinj hnone hre hv _ hrdd
    intro b hb
    obtain ⟨e,he,rfl⟩ := List.mem_map.mp hb
    obtain ⟨i,hi⟩ := List.mem_iff_getElem?.mp he
    rw [List.getElem?_drop] at hi
    have hta := hn.main.traced.take (front.2.height + i + 1)
    rw [take_of_getElem hi] at hta
    refine ⟨hn.main.traced.allowed e (List.mem_of_getElem? hi),_,e,hta,rfl,?_⟩
    rw [htop hnil]
    exact UInt64.lt_of_le_of_lt (work_le_top hn.main.traced hsum hi) hl
  cases hend with
  | refused _ hrst =>
    obtain ⟨-,hr⟩ := watch_ok hrst
    refine ⟨fun ht => Bool.noConfusion ht,fun _ => ?_⟩
    rw [eraseAlternatives_main]
    exact rollback_work hinj hn.main hv.main hc.take hr
  | exchanged hrdd =>
    obtain ⟨hm,-⟩ := hq rfl hrdd
    refine ⟨fun _ => ?_,fun hff => Bool.noConfusion hff⟩
    rw [eraseAlternatives_main, hm]
    exact htop rfl
  | unstored hrdd hrst =>
    obtain ⟨-,hr⟩ := watch_ok hrst
    obtain ⟨hm,hw⟩ := hq rfl hrdd
    refine ⟨fun ht => Bool.noConfusion ht,fun _ => ?_⟩
    apply rollback_work hinj hn.main hw.main _ hr
    rw [hm]
    exact hc.take

theorem blockWith_heavier (hr : ∀ b n a n', readd b n = .ok a n' → ∃ fuel,
      handleWith env now (watch env now) fuel b (env.getBlockHash b) n = .ok a n') (hb : P b)
    (hn : Charted env P n) (hsum : workSum env n.main.blocks < 2 ^ 64)
    (h : blockWith env (switchWith env now (watch env now) readd) b (env.getBlockHash b) n =
      .ok (accepted, bvc) n') : topWork n.main.blocks ≤ topWork n'.main.blocks ∧
      (accepted = true → bvc.switchedToAltChain = true →
        topWork n.main.blocks < topWork n'.main.blocks) := by
  rcases blockWith_cases h with ⟨rfl,rfl,-⟩ | ⟨-,rfl,-,hf⟩ | ⟨alt,en,flag,hexamine,hs⟩
  · exact ⟨UInt64.le_rfl,fun hff => Bool.noConfusion hff⟩
  · refine ⟨UInt64.le_rfl,fun _ hswd => ?_⟩
    rw [hf] at hswd
    cases hswd
  · obtain ⟨_,hex,rfl,hcp⟩ := examineAlternative_store hexamine
    rw [isCheckpoint_of_none hnone] at hcp
    subst hcp
    rcases storeWith_cases hs with ⟨-,rfl,-,rfl,-⟩ | ⟨hsw,-,hm⟩
    · exact ⟨UInt64.le_rfl,fun _ hswd => Bool.noConfusion hswd⟩
    · obtain ⟨_,hla,hl⟩ := hm rfl
      rw [← getLast?_topWork hla] at hl
      have htr := hn.stored_traced hinj hex hb
      have hi := hn.insert_examined hinj hb hex
      obtain ⟨hsu,hfa⟩ := switch_work hinj hnone hr hi
        (hn.chain_allowed hb hex) (fun front hfrt => by
          rw [front_height hex hfrt, List.map_append, ← List.append_assoc]
          exact htr) hl hsum hsw
      cases accepted with
      | true =>
        have hm' : topWork n.main.blocks < topWork n'.main.blocks := by
          rw [hsu rfl]
          exact hl
        exact ⟨UInt64.le_of_lt hm',fun _ _ => hm'⟩
      | false =>
        refine ⟨?_,fun hff => Bool.noConfusion hff⟩
        rw [hfa rfl]
        exact UInt64.le_rfl

theorem handleWith_heavier (hb : P b) (hn : Charted env P n)
    (hsum : workSum env n.main.blocks < 2 ^ 64)
    (h : handleWith env now (watch env now) fuel b (env.getBlockHash b) n =
      .ok (accepted, bvc) n') : topWork n.main.blocks ≤ topWork n'.main.blocks ∧
      (accepted = true → bvc.switchedToAltChain = true →
        topWork n.main.blocks < topWork n'.main.blocks) := by
  cases fuel with
  | zero =>
    apply blockWith_heavier hinj hnone _ hb hn hsum h
    intro old u a u' hc
    cases hc
  | succ fuel =>
    apply blockWith_heavier hinj hnone _ hb hn hsum h
    intro old u a u' hc
    exact ⟨fuel,hc⟩

theorem addWith_heavier (hb : P b) (hn : Charted env P n)
    (hsum : workSum env n.main.blocks < 2 ^ 64) (hsum' : workSum env n'.main.blocks < 2 ^ 64)
    {added : Bool} (h : addWith env now (watch env now) fuel b n = .ok (added, bvc) n') :
    topWork n.main.blocks ≤ topWork n'.main.blocks ∧ (added = true → bvc.switchedToAltChain = true →
        topWork n.main.blocks < topWork n'.main.blocks) := by
  unfold addWith at h
  rw [get_bind] at h
  dsimp only at h
  split_ifs at h with hver hh ht
  · cases h
    exact ⟨UInt64.le_rfl,fun hff => Bool.noConfusion hff⟩
  · cases h
    exact ⟨UInt64.le_rfl,fun hff => Bool.noConfusion hff⟩
  · exact handleWith_heavier hinj hnone hb hn hsum h
  · obtain ⟨hm,-,hc⟩ := pushPoolBlock_traced hn.main hb h
    rcases hc with ⟨rfl,hs⟩ | ⟨rfl,rfl,_,_,happ⟩
    · rw [hs]
      exact ⟨UInt64.le_rfl,fun hff => Bool.noConfusion hff⟩
    · have hbl := happ.blocks
      have htr := hm.traced
      refine ⟨?_,fun _ hswd => Bool.noConfusion hswd⟩
      rw [hbl] at hsum' htr ⊢
      exact topWork_le_append htr hsum'

end Calls

/-- One call on the node that returns, in which no rollback reports failure
and after which the sum of the difficulties is below `2 ^ 64`. -/
inductive WatchedStep (env : Env) (U : Set Transaction) (P : Block → Prop) : Node → Node → Prop
  | block {now : UInt64} {n n' : Node} {b : Block} {fuel : ℕ}
      {result : Bool × BlockVerificationContext} (allowed : P b)
      (call : addWith env now (watch env now) fuel b n = .ok result n')
      (sum : workSum env n'.main.blocks < 2 ^ 64) : WatchedStep env U P n n'
  | transaction {now : UInt64} {n n' : Node} {tx : Transaction} {keptByBlock : Bool}
      {result : Bool × TxVerificationContext} (allowed : tx ∈ U)
      (call : handleIncomingTransaction env now tx keptByBlock n = .ok result n') :
      WatchedStep env U P n n'
  | idle {now : UInt64} {n : Node} :
      WatchedStep env U P n (n.setPool (removeExpiredTransactions env now n.pool))

inductive WatchedRun (env : Env) (U : Set Transaction) (P : Block → Prop) : Node → Prop
  | genesis {now : UInt64} {bvc : BlockVerificationContext} {n : Node}
      (allowed : P env.currency.genesisBlock)
      (push : pushPoolBlock env now env.currency.genesisBlock Node.empty = .ok (true, bvc) n)
      (sum : workSum env n.main.blocks < 2 ^ 64) : WatchedRun env U P n
  | step {n n' : Node} (run : WatchedRun env U P n) (step : WatchedStep env U P n n') :
      WatchedRun env U P n'

section Runs

variable (hinj : Set.InjOn env.getBlockHash {b | P b}) (hnone : env.checkpoints.points = [])
  {U : Set Transaction}

include hinj hnone

theorem watchedStep_heavier (hn : Charted env P n) (hsum : workSum env n.main.blocks < 2 ^ 64)
    (h : WatchedStep env U P n n') : Charted env P n' ∧ workSum env n'.main.blocks < 2 ^ 64 ∧
      topWork n.main.blocks ≤ topWork n'.main.blocks := by
  cases h with
  | @block _ _ _ _ _ result allowed call sum =>
    obtain ⟨_,_⟩ := result
    refine ⟨?_,sum,(addWith_heavier hinj hnone allowed hn hsum sum call).1⟩
    exact addNewBlock_charted hinj allowed hn (addWith_watch_follows _ _ _ _ _ call)
  | transaction _ call =>
    obtain ⟨_,rfl⟩ := handleIncomingTransaction_setPool call
    exact ⟨⟨hn.main,hn.alternatives⟩,hsum,UInt64.le_rfl⟩
  | idle => exact ⟨⟨hn.main,hn.alternatives⟩,hsum,UInt64.le_rfl⟩

theorem WatchedRun.charted (h : WatchedRun env U P n) :
    Charted env P n ∧ workSum env n.main.blocks < 2 ^ 64 := by
  induction h with
  | genesis allowed push sum =>
    obtain ⟨hm,halt,-⟩ := pushPoolBlock_traced charted_empty.main allowed push
    exact ⟨charted_empty.moved hm halt,sum⟩
  | step _ step ih =>
    obtain ⟨hn',hsum,-⟩ := watchedStep_heavier hinj hnone ih.1 ih.2 step
    exact ⟨hn',hsum⟩

/-- Without checkpoints, failed rollbacks, exceptions and sums beyond 64 bits,
the work of the top of the main chain never goes down, and every successful
change of chains raises it. -/
theorem tip_never_lighter {n n' : Node} (hrun : WatchedRun env U P n)
    (hsteps : Relation.ReflTransGen (WatchedStep env U P) n n') :
    topWork n.main.blocks ≤ topWork n'.main.blocks ∧
    ∀ {now : UInt64} {fuel : ℕ} {b : Block} {bvc : BlockVerificationContext} {n'' : Node}, P b →
      addWith env now (watch env now) fuel b n' = .ok (true, bvc) n'' →
      workSum env n''.main.blocks < 2 ^ 64 → bvc.switchedToAltChain = true →
        topWork n'.main.blocks < topWork n''.main.blocks := by
  have hst := hrun.charted hinj hnone
  have hr : Charted env P n' ∧ workSum env n'.main.blocks < 2 ^ 64 ∧
      topWork n.main.blocks ≤ topWork n'.main.blocks := by
    induction hsteps with
    | refl => exact ⟨hst.1,hst.2,UInt64.le_rfl⟩
    | tail _ step ih =>
      obtain ⟨hu,hsum,hle⟩ := ih
      obtain ⟨hn',hsum',hle'⟩ := watchedStep_heavier hinj hnone hu hsum step
      exact ⟨hn',hsum',UInt64.le_trans hle hle'⟩
  refine ⟨hr.2.2,?_⟩
  intro now fuel b bvc n'' hb hc hsum'' hswd
  exact (addWith_heavier hinj hnone hb hr.1 hr.2.1 hsum'' hc).2 rfl hswd

end Runs

def watchedFirst : Node :=
  left (addWith sampleEnv 10000 (watch sampleEnv 10000) 1 firstBlock sampleNode)

def watchedFork : Node :=
  left (addWith sampleEnv 10000 (watch sampleEnv 10000) 1 forkBlock watchedFirst)

def watchedSwitched : Node :=
  left (addWith sampleEnv 10000 (watch sampleEnv 10000) 1 overtakingBlock watchedFork)

theorem tip_never_lighter_sample :
    topWork sampleNode.main.blocks ≤ topWork watchedFork.main.blocks ∧
      topWork watchedFork.main.blocks < topWork watchedSwitched.main.blocks := by
  have hrun : WatchedRun sampleEnv Set.univ ForkBlocks sampleNode := .genesis (.inl rfl)
      (eq_ok_of_value (show _ = some (true, .added) from by decide +kernel)) (by decide +kernel)
  have hfst : WatchedStep sampleEnv Set.univ ForkBlocks sampleNode watchedFirst :=
    .block (.inr (.inl rfl))
      (eq_ok_of_value (show _ = some (true, .added) from by decide +kernel)) (by decide +kernel)
  have hf : WatchedStep sampleEnv Set.univ ForkBlocks watchedFirst watchedFork :=
    .block (.inr (.inr (.inl rfl)))
      (eq_ok_of_value (show _ = some (true, .initial) from by decide +kernel)) (by decide +kernel)
  have hsw : addWith sampleEnv 10000 (watch sampleEnv 10000) 1 overtakingBlock watchedFork =
      .ok (true, switched true) watchedSwitched := eq_ok_of_value (by decide +kernel)
  obtain ⟨hle,hlt⟩ := tip_never_lighter forkBlocks_injective rfl hrun
    ((Relation.ReflTransGen.single hfst).tail hf)
  exact ⟨hle,hlt (.inr (.inr (.inr rfl))) hsw (by decide +kernel) rfl⟩

/-- A block whose transaction has the output of its own coinbase in its ring,
and one on top of it. -/
def selfPaying : Block := mine 3 1 1000 (mint 3 1 5297658301515 (.key 1)) [5]

def selfTop : Block := blockOn sampleFirst 4 3 2 1111

def selfPooled : Node := left (handleIncomingTransaction sampleEnv 10000 keySpend true watchedFirst)

def selfFork : Node :=
  left (addWith sampleEnv 10000 (watch sampleEnv 10000) 1 selfPaying selfPooled)

def SelfBlocks (b : Block) : Prop :=
  b = sampleEnv.currency.genesisBlock ∨ b = firstBlock ∨ b = selfPaying ∨ b = selfTop

theorem selfBlocks_injective : Set.InjOn sampleEnv.getBlockHash {b | SelfBlocks b} := by
  rintro x (rfl | rfl | rfl | rfl) y (rfl | rfl | rfl | rfl) heq
  all_goals first | rfl | exact absurd heq (by decide +kernel)

theorem selfFork_run : WatchedRun sampleEnv {keySpend} SelfBlocks selfFork := by
  have hrun : WatchedRun sampleEnv {keySpend} SelfBlocks sampleNode := .genesis (.inl rfl)
      (eq_ok_of_value (show _ = some (true, .added) from by decide +kernel)) (by decide +kernel)
  have hfst : WatchedStep sampleEnv {keySpend} SelfBlocks sampleNode watchedFirst :=
    .block (.inr (.inl rfl))
      (eq_ok_of_value (show _ = some (true, .added) from by decide +kernel)) (by decide +kernel)
  have htx : WatchedStep sampleEnv {keySpend} SelfBlocks watchedFirst selfPooled :=
    .transaction rfl (eq_ok_of_value
      (show _ = some (true, ⟨false, false, true, true, false⟩) from by decide +kernel))
  have hf : WatchedStep sampleEnv {keySpend} SelfBlocks selfPooled selfFork :=
    .block (.inr (.inr (.inl rfl)))
      (eq_ok_of_value (show _ = some (true, .initial) from by decide +kernel)) (by decide +kernel)
  exact .step (.step (.step hrun hfst) htx) hf

/-- The change to the heavier chain throws while its first block is checked,
when the old block is already gone: the node is left with the genesis block,
and no rollback has run. -/
theorem throwing_switch_lighter : Set.InjOn sampleEnv.getBlockHash {b | SelfBlocks b} ∧
    sampleEnv.checkpoints.points = [] ∧ WatchedRun sampleEnv {keySpend} SelfBlocks selfFork ∧
    (∃ n', addNewBlock sampleEnv 10000 1 selfTop selfFork = .error .outOfRange n' ∧
      topWork n'.main.blocks < topWork selfFork.main.blocks) ∧
    ∃ n', addWith sampleEnv 10000 (watch sampleEnv 10000) 1 selfTop selfFork =
      .error .outOfRange n' :=
  ⟨selfBlocks_injective,rfl,selfFork_run,
    ⟨_,eq_error_of_fault (by decide +kernel),by decide +kernel⟩,
    _,eq_error_of_fault (by decide +kernel)⟩

end Orbis.ChainHeaviest
