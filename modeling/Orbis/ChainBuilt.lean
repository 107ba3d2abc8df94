import Orbis.ChainSound

/-!
# Chains built by accepted blocks

A chain is built when it grew from the empty one by accepted blocks alone.
Refused blocks that are not too large leave a built chain as it is, and
removing a block leads back to the built chain below it, so whatever holds of
all built chains holds along every history of pushes and pops. The clock
bounds the times at which the blocks were accepted.
-/

set_option autoImplicit false

namespace Orbis.ChainBuilt

open ChainTypes ChainSemantic ChainBlock ChainStack
open ChainSound

variable (env : Env) (U : Set Transaction) (P : Block → Prop)

variable {ck : UInt64} {m : MainChain}

inductive Built (clock : UInt64) : MainChain → Prop
  | empty : Built clock MainChain.empty
  | push {m : MainChain} {now : UInt64} {b : Block} {txs : List Transaction}
      {difficulty : UInt64} {emissionChange : Int64} (lower : Built clock m)
      (time : now ≤ clock) (allowed : P b) (offered : Offered env U b txs)
      (acceptance : Acceptance env now m b txs difficulty emissionChange) :
      Built clock (accepted env m b txs difficulty emissionChange)

variable {env U P}

theorem sound_empty : Sound env U MainChain.empty where
  recorded := recorded_empty env U
  index := rfl
  distinct := List.nodup_nil
  counted := rfl
  total := rfl

theorem Built.sound (hU : TxInj env U) (h : Built env U P ck m) : Sound env U m := by
  induction h with
  | empty => exact sound_empty
  | push _ _ _ offered acceptance ih =>
    exact sound_accepted hU ih offered acceptance

theorem Built.later {ck' : UInt64} (h : Built env U P ck m) (hc : ck ≤ ck')
    : Built env U P ck' m := by
  induction h with
  | empty => exact .empty
  | push _ time allowed offered acceptance ih =>
    exact .push ih (UInt64.le_trans time hc) allowed offered acceptance

theorem Built.mono {Q : Block → Prop} (h : Built env U P ck m) (hPQ : ∀ b, P b → Q b)
    : Built env U Q ck m := by
  induction h with
  | empty => exact .empty
  | push _ time allowed offered acceptance ih =>
    exact .push ih time (hPQ _ allowed) offered acceptance

theorem Built.pushBlock {now : UInt64} {m' : MainChain} {b : Block} {txs : List Transaction}
    {added : Bool} {bvc : BlockVerificationContext} (hU : TxInj env U) (h : Built env U P ck m)
    (ht : now ≤ ck) (hb : P b) (hoff : Offered env U b txs)
    (hrun : ChainBlock.pushBlock env now b txs m = .ok (added, bvc) m')
    (hf : added = false → ¬ Oversized env now m b txs) :
    Built env U P ck m' ∧ (added = false → m' = m) := by
  rcases pushBlock_cases now hU (h.sound hU) hoff with
    ⟨_,hc,-⟩ | ⟨_,_,hc,-⟩ | ⟨ho,hc⟩ | ⟨df,em,hacc,hc⟩
  · rw [hc] at hrun
    cases hrun
    exact ⟨h,fun _ => rfl⟩
  · rw [hc] at hrun
    cases hrun
  · rw [hc] at hrun
    cases hrun
    exact absurd ho (hf rfl)
  · rw [hc] at hrun
    cases hrun
    exact ⟨.push h ht hb hoff hacc,fun hff => Bool.noConfusion hff⟩

theorem Built.last (h : Built env U P ck m) {blk : BlockEntry}
    (hblk : m.blocks.getLast? = some blk) :
    ∃ lower now txs df em, Built env U P ck lower ∧ now ≤ ck ∧
      P blk.bl ∧ Offered env U blk.bl txs ∧ Acceptance env now lower blk.bl txs df em ∧
      blk = acceptedEntry env lower blk.bl txs df em ∧ m = accepted env lower blk.bl txs df em := by
  cases h with
  | empty => cases hblk
  | @push lower now _ txs df em hlw ht hb hoff hacc =>
    rw [accepted_blocks, List.getLast?_concat, Option.some.injEq] at hblk
    subst hblk
    exact ⟨lower,now,txs,df,em,hlw,ht,hb,hoff,hacc,rfl,rfl⟩

theorem Built.entries {Q : BlockEntry → Prop} (h : Built env U P ck m)
    (hQ : ∀ m now b txs df em, P b → Offered env U b txs → Acceptance env now m b txs df em →
      Q (acceptedEntry env m b txs df em)) : ∀ e ∈ m.blocks, Q e := by
  induction h with
  | empty =>
    intro e he
    cases he
  | push _ _ allowed offered acceptance ih =>
    intro e he
    rw [accepted_blocks, List.mem_append, List.mem_singleton] at he
    rcases he with hold | rfl
    · exact ih e hold
    · exact hQ _ _ _ _ _ _ allowed offered acceptance

end Orbis.ChainBuilt
