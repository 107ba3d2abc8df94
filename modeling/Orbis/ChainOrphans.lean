import Orbis.ChainCharted
import Orbis.ChainHeaviest

/-!
# The index of alternative blocks

Beside the alternative blocks, which are kept by their hashes, the node keeps
an index of them by the height in their coinbase. A block enters both when it
is stored and leaves both when it is erased, also when a change of chains
fails or starts another one. So the index has each alternative block once,
under the height of its entry, and nothing else.
-/

set_option autoImplicit false

namespace Orbis.ChainOrphans

open FaultState ChainTypes ChainSemantic ChainBlock ChainNode ChainOutcome ChainUpheld ChainRun
open ChainStock ChainTrace ChainCharted ChainHeaviest

structure IndexExact (n : Node) : Prop where
  once : n.orthanBlocksIndex.Nodup
  mem : ∀ height id, (height, id) ∈ n.orthanBlocksIndex ↔
    ∃ e, n.alternativeChains.lookup id = some e ∧ e.height = height

structure Indexed (env : Env) (P : Block → Prop) (n : Node) : Prop where
  charted : Charted env P n
  exact : IndexExact n

variable {env : Env} {now : UInt64} {P : Block → Prop} {n n' : Node} {b : Block}

theorem IndexExact.moved (h : IndexExact n) (halt : n'.alternativeChains = n.alternativeChains)
    (hix : n'.orthanBlocksIndex = n.orthanBlocksIndex) : IndexExact n' := by
  refine ⟨hix ▸ h.once,fun ht id => ?_⟩
  rw [hix, halt]
  exact h.mem ht id

theorem pushPoolBlock_index {added : Bool} {bvc : BlockVerificationContext}
    (h : pushPoolBlock env now b n = .ok (added, bvc) n') :
    n'.orthanBlocksIndex = n.orthanBlocksIndex := by
  rcases pushPoolBlock_cases h with ⟨-,hl⟩ | ⟨_,_,_,hl,-,hend⟩
  · obtain ⟨p,rfl,-⟩ := loadTransactions_stock hl
    rfl
  · obtain ⟨p,rfl,-⟩ := loadTransactions_stock hl
    rcases hend with ⟨-,rfl⟩ | ⟨-,hs⟩
    · rfl
    · obtain ⟨_,rfl,-⟩ := saveTransactions_stock hs
      rfl

theorem popBlock_index {hash : Hash} (h : popBlock env now hash n = .ok ⟨⟩ n') :
    n'.orthanBlocksIndex = n.orthanBlocksIndex := by
  cases hl : n.main.blocks.getLast? with
  | none =>
    unfold popBlock at h
    rw [get_bind, hl] at h
    cases h
    rfl
  | some _ =>
    obtain ⟨_,_,hs,-,rfl⟩ := popBlock_cases hl h
    obtain ⟨_,rfl,-⟩ := saveTransactions_stock hs
    rfl

theorem Charted.coinbase (h : Charted env P n) {id : Hash} {e : BlockEntry}
    (hl : n.alternativeChains.lookup id = some e) :
    id = env.getBlockHash e.bl ∧ P e.bl ∧ e.height = getBlockHeight e.bl := by
  obtain ⟨hid,_,-,htr⟩ := h.alternatives id e hl
  obtain ⟨hal,-,hcb,hht,-⟩ := htr.last
  exact ⟨hid,hal,hht.trans hcb.symm⟩

theorem IndexExact.insert (h : IndexExact n) {alt : AltChain} {par : ℕ × UInt64 × List UInt64}
    (hex : Examined env n b (env.getBlockHash b) alt par) :
    IndexExact (insertAlternative env (env.getBlockHash b) (storedEntry env n b alt par) n) := by
  have hht : getBlockHeight (storedEntry env n b alt par).bl =
      (storedEntry env n b alt par).height := getBlockHeight_of_examined hex
  have hn := Finmap.lookup_eq_none.mpr hex.new
  refine ⟨?_,?_⟩
  · refine Multiset.nodup_cons.mpr ⟨fun hold => ?_,h.once⟩
    obtain ⟨_,hl,-⟩ := (h.mem _ _).mp hold
    rw [show env.getBlockHash (storedEntry env n b alt par).bl = env.getBlockHash b from rfl,
      hn] at hl
    cases hl
  · intro ht id
    rw [insertAlternative, Multiset.mem_cons, h.mem, hht, Prod.mk.injEq]
    by_cases hid : id = env.getBlockHash b
    · subst hid
      rw [Finmap.lookup_insert, hn]
      simp [storedEntry, alternativeEntry, eq_comm]
    · rw [Finmap.lookup_insert_of_ne _ hid]
      exact or_iff_right fun hnew => hid hnew.2

theorem IndexExact.erase (hinj : BlockInj env P) (hn : Indexed env P n) {en : Hash × BlockEntry}
    (hk : Kept (Indexed env P) en) : IndexExact (eraseAlternative env en n) := by
  obtain ⟨_,hm,hsto⟩ := hk
  obtain ⟨hent,hal,hht⟩ := Charted.coinbase hm.charted hsto
  refine ⟨hn.exact.once.erase _,fun ht id => ?_⟩
  rw [eraseAlternative, hn.exact.once.mem_erase_iff, hn.exact.mem, ← hent, ← hht, ne_eq,
    Prod.mk.injEq]
  by_cases hid : id = en.1
  · subst hid
    rw [Finmap.lookup_erase]
    constructor
    · rintro ⟨hne,e,hl,rfl⟩
      obtain ⟨hs,hoth,hcb⟩ := Charted.coinbase hn.charted hl
      have hblk : e.bl = en.2.bl := hinj hoth hal (hs.symm.trans hent)
      exact absurd ⟨by rw [hcb, hblk, hht],rfl⟩ hne
    · rintro ⟨e,he,-⟩
      cases he
  · rw [Finmap.lookup_erase_ne hid]
    exact and_iff_right fun hs => hid hs.2

theorem steers_indexed (hinj : BlockInj env P) :
    Steers env now P (fun _ _ => True) (Indexed env P) where
  main := fun _ hn => hn.charted.main.traced.allowed
  alternatives := fun _ hn _ _ => hn.charted.allowed
  push := by
    intro b hb n hn
    refine ⟨?_,fun _ _ _ => trivial⟩
    rintro ⟨added,bvc⟩ n' h
    obtain ⟨hm,halt,-⟩ := pushPoolBlock_traced hn.charted.main hb h
    exact ⟨⟨hn.charted.moved hm halt,hn.exact.moved halt (pushPoolBlock_index h)⟩,trivial⟩
  pop := by
    intro hash n hn
    refine ⟨?_,fun _ _ _ => trivial⟩
    intro _ n' h
    obtain ⟨hm,halt,-⟩ := popBlock_traced hn.charted.main h
    exact ⟨⟨hn.charted.moved hm halt,hn.exact.moved halt (popBlock_index h)⟩,trivial⟩
  insert := fun _ _ _ _ hn hb hex => ⟨hn.charted.insert_examined hinj hb hex,hn.exact.insert hex⟩
  erase := fun _ e hn hk => ⟨hn.charted.erase [e],IndexExact.erase hinj hn hk⟩
  faults := fun _ _ _ _ => trivial

theorem indexed_of_run (hinj : BlockInj env P) {U : Set Transaction} {strict : Prop} {ck : UInt64}
    (h : Run env U P strict ck n) : Indexed env P n := by
  have hemp : Indexed env P Node.empty :=
    ⟨charted_empty,Multiset.nodup_zero,fun ht id => by simp [Node.empty]⟩
  induction h with
  | genesis _ allowed push =>
    exact (((steers_indexed hinj).push _ allowed _ hemp).1 _ _ push).1
  | block _ _ _ allowed call _ ih =>
    exact (((steers_indexed hinj).addNewBlock _ allowed _ ih).1 _ _ call).1
  | transaction _ _ _ _ call ih =>
    obtain ⟨_,rfl⟩ := handleIncomingTransaction_setPool call
    exact ⟨⟨ih.charted.main,ih.charted.alternatives⟩,ih.exact.moved rfl rfl⟩
  | idle _ _ _ ih =>
    exact ⟨⟨ih.charted.main,ih.charted.alternatives⟩,ih.exact.moved rfl rfl⟩

/-- Whatever blocks a node was given and however it changed its chains, the
index has one entry for each alternative block, with the height stored for it,
and no other entry. -/
theorem orphans_indexed (hinj : Set.InjOn env.getBlockHash {b | P b}) {U : Set Transaction}
    {strict : Prop} {clock : UInt64} (h : Run env U P strict clock n) :
    n.orthanBlocksIndex.Nodup ∧ ∀ height id, (height, id) ∈ n.orthanBlocksIndex ↔
      ∃ e, n.alternativeChains.lookup id = some e ∧ e.height = height :=
  ⟨(indexed_of_run hinj h).exact.once,(indexed_of_run hinj h).exact.mem⟩

def sideNode : Node :=
  left (addNewBlock sampleEnv 10000 1 forkBlock
    (left (addNewBlock sampleEnv 10000 1 firstBlock sampleNode)))

theorem orphans_indexed_sample : sideNode.orthanBlocksIndex = {(1, 3)} ∧
    ∃ e, sideNode.alternativeChains.lookup 3 = some e ∧ e.height = 1 := by
  have hix : sideNode.orthanBlocksIndex = {(1, 3)} := by decide +kernel
  have hrun : Run sampleEnv Set.univ ForkBlocks False 10000 sideNode :=
    .block (.block (sampleNode_run (.inl rfl)) (by decide) UInt64.le_rfl (.inr (.inl rfl))
      (eq_ok_of_value (show _ = some (true, .added) from by decide +kernel)) False.elim)
      UInt64.le_rfl UInt64.le_rfl (.inr (.inr (.inl rfl)))
      (eq_ok_of_value (show _ = some (true, .initial) from by decide +kernel)) False.elim
  refine ⟨hix,((orphans_indexed forkBlocks_injective hrun).2 1 3).mp ?_⟩
  rw [hix]
  exact Multiset.mem_singleton_self _

end Orbis.ChainOrphans
