import Orbis.WalletMoves

/-!
# Which transfers are shown

Only one output with a key image can ever be spent. Of the transfers with one
key image the spent one is shown, or else the earliest that can be spent, or
else a single unconfirmed one. Each move of an output puts this right for its
own key image and leaves the others alone, so it holds after every call, also
after one that throws.
-/

set_option autoImplicit false

namespace Orbis.WalletShown

open FaultState ListCursor ChainTypes WalletTransfers WalletMoves

variable {s' : Transfers} {c : Cursor Transfer}

variable {α : Type} {spent : List SpentTransfer} {p : SpentTransfer}

section Groups

def group (s : Transfers) (keyImage : KeyImage) : Transfers where
  unconfirmed := s.unconfirmed.filter fun t => t.isFor keyImage
  available := s.available.filter fun t => t.isFor keyImage
  spent := s.spent.filter fun p => p.output.isFor keyImage

def Hidden (l : List Transfer) : Prop := ∀ t ∈ l, t.visible = false

structure Shown (g : Transfers) : Prop where
  once : g.spent.length ≤ 1
  spent : g.spent ≠ [] →
    (∀ p ∈ g.spent, p.output.visible = true) ∧ Hidden g.available ∧ Hidden g.unconfirmed
  available : g.spent = [] → g.available ≠ [] →
    (∃ c : Cursor Transfer, c.list = g.available ∧ c.item.visible = true ∧ Hidden c.erase ∧
      Leads Transfer.place (fun _ => true) c) ∧ Hidden g.unconfirmed
  unconfirmed : g.spent = [] → g.available = [] →
    ∀ t ∈ g.unconfirmed, t.visible = decide (g.unconfirmed.length = 1)

def Settled (s : Transfers) : Prop := ∀ keyImage, Shown (group s keyImage)

variable {keyImage o : KeyImage} {vis : Bool} {t : Transfer} {l : List Transfer}

@[simp] theorem show_isFor : (t.show vis).isFor o = t.isFor o := rfl

@[simp] theorem show_place : (t.show vis).place = t.place := rfl

@[simp] theorem update_isFor : (t.update keyImage vis).isFor o = t.isFor o := by
  unfold Transfer.update
  split_ifs <;> rfl

@[simp] theorem update_place : (t.update keyImage vis).place = t.place := by
  unfold Transfer.update
  split_ifs <;> rfl

theorem update_of_isFor (h : t.isFor keyImage = true) :
    t.update keyImage vis = t.show vis := if_pos h

theorem isFor_unique (h : t.isFor keyImage = true) (hoth : t.isFor o = true) : keyImage = o := by
  have hkey := of_decide_eq_true h
  rw [of_decide_eq_true hoth] at hkey
  exact (SpentOutputDescriptor.key.inj hkey).symm

theorem update_other (hne : o ≠ keyImage) (h : t.isFor o = true) : t.update keyImage vis = t := by
  apply if_neg
  exact fun hs => hne (isFor_unique h hs)

theorem filter_update_other (hne : o ≠ keyImage) :
    (l.map (Transfer.update keyImage vis)).filter (fun t => t.isFor o) =
      l.filter fun t => t.isFor o := by
  rw [List.filter_map]
  have hs : ((fun t : Transfer => t.isFor o) ∘ Transfer.update keyImage vis) =
      fun t => t.isFor o := by
    funext t
    exact update_isFor
  rw [hs]
  calc (l.filter fun t => t.isFor o).map (Transfer.update keyImage vis)
      = (l.filter fun t => t.isFor o).map id := by
        apply List.map_congr_left
        intro t ht
        exact update_other hne (List.mem_filter.mp ht).2
    _ = l.filter fun t => t.isFor o := List.map_id _

theorem filter_update_same :
    (l.map (Transfer.update keyImage vis)).filter (fun t => t.isFor keyImage) =
      (l.filter fun t => t.isFor keyImage).map fun t => t.show vis := by
  rw [List.filter_map]
  have hs : ((fun t : Transfer => t.isFor keyImage) ∘ Transfer.update keyImage vis) =
      fun t => t.isFor keyImage := by
    funext t
    exact update_isFor
  rw [hs]
  apply List.map_congr_left
  intro t ht
  exact update_of_isFor (List.mem_filter.mp ht).2

theorem filter_spentUpdate_other {l : List SpentTransfer} (hne : o ≠ keyImage) :
    (l.map (SpentTransfer.update keyImage vis)).filter (fun p => p.output.isFor o) =
      l.filter fun p => p.output.isFor o := by
  rw [List.filter_map]
  have hs : ((fun p : SpentTransfer => p.output.isFor o) ∘
      SpentTransfer.update keyImage vis) = fun p => p.output.isFor o := by
    funext p
    exact update_isFor
  rw [hs]
  calc (l.filter fun p => p.output.isFor o).map (SpentTransfer.update keyImage vis)
      = (l.filter fun p => p.output.isFor o).map id := by
        apply List.map_congr_left
        intro p hp
        show ({ p with output := p.output.update keyImage vis } : SpentTransfer) = p
        rw [update_other hne (List.mem_filter.mp hp).2]
    _ = l.filter fun p => p.output.isFor o := List.map_id _

theorem filter_spentUpdate_same {l : List SpentTransfer} :
    (l.map (SpentTransfer.update keyImage vis)).filter (fun p => p.output.isFor keyImage) =
      (l.filter fun p => p.output.isFor keyImage).map (SpentTransfer.update keyImage vis) := by
  rw [List.filter_map]
  congr 2
  funext p
  exact update_isFor

theorem hidden_show (l : List Transfer) : Hidden (l.map fun t => t.show false) := by
  intro t ht
  obtain ⟨_,-,rfl⟩ := List.mem_map.mp ht
  rfl

theorem showEarliest_other (hne : o ≠ keyImage) :
    (showEarliest keyImage l).filter (fun t => t.isFor o) = l.filter fun t => t.isFor o := by
  unfold showEarliest
  dsimp only
  cases hlst : least Transfer.place (fun t => t.isFor keyImage)
      (l.map (Transfer.update keyImage false)) with
  | none => exact filter_update_other hne
  | some c =>
    obtain ⟨hl,hlds⟩ := least_some hlst
    have hi : c.item.isFor o = false := by
      apply Bool.eq_false_iff.mpr
      exact fun hs => hne (isFor_unique hs hlds.holds)
    dsimp only
    rw [c.filter_replace hi, c.filter_erase hi, hl, filter_update_other hne]

theorem showEarliest_same (h : ∃ t ∈ l, t.isFor keyImage = true) : ∃ c : Cursor Transfer,
    c.list = (showEarliest keyImage l).filter (fun t => t.isFor keyImage) ∧
      c.item.visible = true ∧ Hidden c.erase ∧ Leads Transfer.place (fun _ => true) c := by
  unfold showEarliest
  dsimp only
  cases hlst : least Transfer.place (fun t => t.isFor keyImage)
      (l.map (Transfer.update keyImage false)) with
  | none =>
    obtain ⟨t,ht,hfor⟩ := h
    have hn := least_none.mp hlst _ (List.mem_map_of_mem ht)
    rw [update_isFor, hfor] at hn
    cases hn
  | some c =>
    obtain ⟨hl,hlds⟩ := least_some hlst
    have hhid : Hidden (c.list.filter fun t => t.isFor keyImage) := by
      rw [hl, filter_update_same]
      exact hidden_show _
    have hshn : Leads Transfer.place (fun t : Transfer => t.isFor keyImage)
        { c with item := c.item.show true } := ⟨hlds.holds,hlds.before,hlds.after⟩
    refine ⟨_,Cursor.narrow_list hshn.holds,rfl,?_,hshn.narrow⟩
    intro t ht
    apply hhid
    rw [← Cursor.narrow_list hlds.holds]
    exact Cursor.erase_subset _ ht

theorem update_group_other (s : Transfers) (hne : o ≠ keyImage) :
    group (s.updateTransfersVisibility keyImage) o = group s o := by
  unfold Transfers.updateTransfersVisibility group
  dsimp only
  split_ifs
  · rw [filter_update_other hne, filter_update_other hne, filter_spentUpdate_other hne]
  · rw [filter_update_other hne, showEarliest_other hne]
  · rw [filter_update_other hne]

theorem countP_pos_iff {p : α → Bool} {l : List α} : 0 < l.countP p ↔ l.filter p ≠ [] := by
  rw [List.countP_eq_length_filter, List.length_pos_iff]

theorem update_group_same (s : Transfers) (ho : (group s keyImage).spent.length ≤ 1) :
    Shown (group (s.updateTransfersVisibility keyImage) keyImage) := by
  unfold Transfers.updateTransfersVisibility
  dsimp only
  split_ifs with hsp hav
  · have hne := countP_pos_iff.mp hsp
    refine ⟨?_,?_,?_,?_⟩
    · show (List.filter _ (List.map _ _)).length ≤ 1
      rw [filter_spentUpdate_same, List.length_map]
      exact ho
    · intro _
      refine ⟨?_,?_,?_⟩
      · intro p hp
        obtain ⟨hmem,hfor⟩ := List.mem_filter.mp hp
        obtain ⟨q,-,rfl⟩ := List.mem_map.mp hmem
        rw [show (q.update keyImage true).output = q.output.update keyImage true from rfl,
          update_isFor] at hfor
        show (q.output.update keyImage true).visible = true
        rw [update_of_isFor hfor]
        rfl
      · show Hidden (List.filter _ (List.map _ _))
        rw [filter_update_same]
        exact hidden_show _
      · show Hidden (List.filter _ (List.map _ _))
        rw [filter_update_same]
        exact hidden_show _
    · intro hnil
      exfalso
      apply hne
      have hmap : (List.filter _ (List.map (SpentTransfer.update keyImage true) s.spent)) = [] :=
        hnil
      rw [filter_spentUpdate_same] at hmap
      exact List.map_eq_nil_iff.mp hmap
    · intro hnil
      exfalso
      apply hne
      have hmap : (List.filter _ (List.map (SpentTransfer.update keyImage true) s.spent)) = [] :=
        hnil
      rw [filter_spentUpdate_same] at hmap
      exact List.map_eq_nil_iff.mp hmap
  · have hnil : s.spent.filter (fun p => p.output.isFor keyImage) = [] :=
      not_not.mp fun hne => hsp (countP_pos_iff.mpr hne)
    have hs : ∃ t ∈ s.available, t.isFor keyImage = true := by
      rwa [List.countP_pos_iff] at hav
    obtain ⟨c,hl,hshn,hhid,hlds⟩ := showEarliest_same hs
    refine ⟨ho,fun hne => absurd hnil hne,?_,?_⟩
    · intro _ _
      refine ⟨⟨c,hl,hshn,hhid,hlds⟩,?_⟩
      show Hidden (List.filter _ (List.map _ _))
      rw [filter_update_same]
      exact hidden_show _
    · intro _ hemp
      have hemp' : c.list = [] := hl.trans hemp
      exact absurd hemp' (List.ne_nil_of_mem c.item_mem)
  · have hnil : s.spent.filter (fun p => p.output.isFor keyImage) = [] :=
      not_not.mp fun hne => hsp (countP_pos_iff.mpr hne)
    have hn : s.available.filter (fun t => t.isFor keyImage) = [] :=
      not_not.mp fun hne => hav (countP_pos_iff.mpr hne)
    refine ⟨ho,fun hne => absurd hnil hne,fun _ hne => absurd hn hne,?_⟩
    intro _ _ t ht
    have ht' : t ∈ List.filter _ (List.map (Transfer.update keyImage _) s.unconfirmed) := ht
    rw [filter_update_same] at ht'
    obtain ⟨_,-,rfl⟩ := List.mem_map.mp ht'
    show decide (s.unconfirmed.countP _ = 1) = decide ((List.filter _ (List.map _ _)).length = 1)
    rw [filter_update_same, List.length_map, List.countP_eq_length_filter]

end Groups

section Moves

variable {s : Transfers} {t : Transfer} {keyImage : KeyImage}

theorem refresh_settled (hs : Settled s)
    (hoth : ∀ keyImage, t.isFor keyImage = false → group s' keyImage = group s keyImage)
    (ho : ∀ keyImage, (group s' keyImage).spent.length ≤ 1) : Settled (s'.refresh t.kind) := by
  intro keyImage
  cases hk : t.kind with
  | multisignature _ =>
    have hnot : t.isFor keyImage = false := by
      apply decide_eq_false
      rw [TransactionOutputInformationIn.descriptor, hk]
      exact fun h => by cases h
    show Shown (group s' keyImage)
    rw [hoth keyImage hnot]
    exact hs keyImage
  | key _ own =>
    show Shown (group (s'.updateTransfersVisibility own) keyImage)
    by_cases hsa : keyImage = own
    · subst hsa
      exact update_group_same s' (ho keyImage)
    · have hnot : t.isFor keyImage = false := by
        apply decide_eq_false
        rw [TransactionOutputInformationIn.descriptor, hk]
        exact fun h => hsa (SpentOutputDescriptor.key.inj h).symm
      rw [update_group_other s' hsa, hoth keyImage hnot]
      exact hs keyImage

theorem filter_snoc {p : α → Bool} {l : List α} {a : α} (h : p a = false) :
    (l ++ [a]).filter p = l.filter p := by
  rw [List.filter_append, List.filter_singleton, h]
  exact List.append_nil _

theorem group_congr (hunc : (s'.unconfirmed.filter fun t => t.isFor keyImage) =
      s.unconfirmed.filter fun t => t.isFor keyImage)
    (hav : (s'.available.filter fun t => t.isFor keyImage) =
      s.available.filter fun t => t.isFor keyImage)
    (hsp : (s'.spent.filter fun p => p.output.isFor keyImage) =
      s.spent.filter fun p => p.output.isFor keyImage) : group s' keyImage = group s keyImage := by
  rw [group, hunc, hav, hsp]
  rfl

theorem added_other {l : List Transfer} (h : t.isFor keyImage = false) :
    ((l ++ [t]).filter fun u => u.isFor keyImage) = l.filter fun u => u.isFor keyImage :=
  filter_snoc (p := fun u : Transfer => u.isFor keyImage) h

theorem erased_other {l : List Transfer} (hc : c.list = l) (h : c.item.isFor keyImage = false) :
    (c.erase.filter fun u => u.isFor keyImage) = l.filter fun u => u.isFor keyImage := by
  rw [← hc]
  exact c.filter_erase (p := fun u : Transfer => u.isFor keyImage) h

theorem addUnconfirmed_settled (hs : Settled s) (t : Transfer) : Settled (s.addUnconfirmed t) := by
  apply refresh_settled hs
  · exact fun keyImage hnot => group_congr (added_other hnot) rfl rfl
  · exact fun keyImage => (hs keyImage).once

theorem addAvailable_settled (hs : Settled s) (t : Transfer) : Settled (s.addAvailable t) := by
  apply refresh_settled hs
  · exact fun keyImage hnot => group_congr rfl (added_other hnot) rfl
  · exact fun keyImage => (hs keyImage).once

theorem copyToSpent_once (h : (spent.filter fun q => q.output.isFor keyImage).length ≤ 1) :
    ((copyToSpent spent p).filter fun q => q.output.isFor keyImage).length ≤ 1 := by
  unfold copyToSpent
  split_ifs with hany
  · exact h
  · by_cases hp : p.output.isFor keyImage = true
    · have hnil : (spent.filter fun q => q.output.isFor keyImage) = [] := by
        apply List.filter_eq_nil_iff.mpr
        intro q hq hfor
        apply hany
        rw [List.any_eq_true]
        refine ⟨q,hq,decide_eq_true ?_⟩
        rw [of_decide_eq_true hp, of_decide_eq_true hfor]
      rw [List.filter_append, hnil, List.nil_append]
      exact List.length_filter_le _ _
    · rw [filter_snoc (p := fun q : SpentTransfer => q.output.isFor keyImage)
        (Bool.eq_false_iff.mpr hp)]
      exact h

theorem copyToSpent_other (h : p.output.isFor keyImage = false) :
    ((copyToSpent spent p).filter fun q => q.output.isFor keyImage) =
      spent.filter fun q => q.output.isFor keyImage := by
  unfold copyToSpent
  split_ifs
  · rfl
  · exact filter_snoc (p := fun q : SpentTransfer => q.output.isFor keyImage) h

theorem spend_settled (hs : Settled s) (hc : c.list = s.available) (blk : TransactionBlockInfo)
    (hash : Hash) (i : ℕ) : Settled (s.spend c blk hash i) := by
  apply refresh_settled hs
  · exact fun keyImage hnot => group_congr rfl (erased_other hc hnot) (copyToSpent_other hnot)
  · exact fun keyImage => copyToSpent_once (hs keyImage).once

theorem confirm_settled (hs : Settled s) (hc : c.list = s.unconfirmed)
    (ht : ∀ keyImage, t.isFor keyImage = c.item.isFor keyImage) : Settled (s.confirm c t) := by
  apply refresh_settled hs
  · intro keyImage hnot
    exact group_congr (erased_other hc ((ht keyImage).symm.trans hnot)) (added_other hnot) rfl
  · exact fun keyImage => (hs keyImage).once

theorem release_settled (hs : Settled s) {c : Cursor SpentTransfer} (hc : c.list = s.spent) :
    Settled (s.release c) := by
  apply refresh_settled hs
  · intro keyImage hnot
    refine group_congr rfl (added_other hnot) ?_
    rw [← hc]
    exact c.filter_erase (p := fun q : SpentTransfer => q.output.isFor keyImage) hnot
  · intro keyImage
    apply le_trans _ (hs keyImage).once
    show (c.erase.filter _).length ≤ (s.spent.filter _).length
    rw [← hc]
    apply List.Sublist.length_le
    apply List.Sublist.filter
    exact List.Sublist.append_left (List.sublist_cons_self _ _) _

theorem dropUnconfirmed_settled (hs : Settled s) (hc : c.list = s.unconfirmed)
    : Settled (s.dropUnconfirmed c) := by
  apply refresh_settled hs
  · exact fun keyImage hnot => group_congr (erased_other hc hnot) rfl rfl
  · exact fun keyImage => (hs keyImage).once

theorem dropAvailable_settled (hs : Settled s) (hc : c.list = s.available) :
    Settled (s.dropAvailable c) := by
  apply refresh_settled hs
  · exact fun keyImage hnot => group_congr rfl (erased_other hc hnot) rfl
  · exact fun keyImage => (hs keyImage).once

end Moves

section Calls

variable {s : Transfers}

theorem output_settled (hs : Settled s) (blk : TransactionBlockInfo) (tx : TransactionReader)
    (transfer : TransactionOutputInformationIn) : Settled (addOutput s blk tx transfer) := by
  unfold addOutput
  split_ifs
  · exact addUnconfirmed_settled hs _
  · exact addAvailable_settled hs _

theorem confirmed_isFor {blk : TransactionBlockInfo} {idx : ℕ} {t : Transfer}
    {ki : KeyImage} : (confirmed blk idx t).isFor ki = t.isFor ki := by
  unfold Transfer.isFor TransactionOutputInformationIn.descriptor confirmed
  cases t.kind with
  | key _ _ => rfl
  | multisignature _ => rfl

theorem respend_settled (hs : Settled s) (blk : TransactionBlockInfo) (hash : Hash) :
    Settled { s with spent := s.spent.map (SpentTransfer.respend blk hash) } := by
  intro ki
  have hmap : (s.spent.map (SpentTransfer.respend blk hash)).filter (fun p => p.output.isFor ki) =
      (s.spent.filter fun p => p.output.isFor ki).map (SpentTransfer.respend blk hash) := by
    rw [List.filter_map]
    congr 2
    funext p
    show (p.respend blk hash).output.isFor ki = _
    rw [respend_output]
  have hgrp := hs ki
  unfold group at hgrp ⊢
  dsimp only
  rw [hmap]
  refine ⟨?_,?_,?_,?_⟩
  · rw [List.length_map]
    exact hgrp.once
  · intro hne
    obtain ⟨hshn,hr⟩ := hgrp.spent fun hnil => hne (by
      dsimp only at hnil ⊢
      rw [hnil]
      rfl)
    refine ⟨?_,hr⟩
    intro p hp
    obtain ⟨q,hq,rfl⟩ := List.mem_map.mp hp
    rw [respend_output]
    exact hshn q hq
  · exact fun hnil => hgrp.available (List.map_eq_nil_iff.mp hnil)
  · exact fun hnil => hgrp.unconfirmed (List.map_eq_nil_iff.mp hnil)

theorem move_settled (h : Move s s') (hs : Settled s) : Settled s' := by
  cases h with
  | output _ => exact output_settled hs _ _ _
  | spend within _ => exact spend_settled hs within _ _ _
  | confirm within _ => exact confirm_settled hs within fun _ => confirmed_isFor
  | respend => exact respend_settled hs _ _
  | release within => exact release_settled hs within
  | dropUnconfirmed within => exact dropUnconfirmed_settled hs within
  | dropAvailable within => exact dropAvailable_settled hs within

theorem called_settled {c : TransfersContainer} (h : Called c) : Settled c.toTransfers := by
  refine h.kept ?_ (fun _ _ => move_settled)
  intro ki
  exact ⟨Nat.zero_le _,fun hne => absurd rfl hne,fun _ hne => absurd rfl hne,
    fun _ _ t ht => absurd ht List.not_mem_nil⟩

end Calls

theorem hidden_countP {l : List Transfer} (h : Hidden l) : (l.countP fun t => t.visible) = 0 := by
  rw [List.countP_eq_zero]
  intro t ht
  rw [h t ht]
  exact Bool.false_ne_true

theorem cursor_countP (hi : c.item.visible = true) (hhid : Hidden c.erase)
    : (c.list.countP fun t => t.visible) = 1 := by
  rw [c.perm_list.countP_eq, List.countP_cons_of_pos hi, hidden_countP hhid]

theorem Shown.single {g : Transfers} (h : Shown g) :
    (g.available.countP fun t => t.visible) + (g.unconfirmed.countP fun t => t.visible) ≤ 1 := by
  by_cases hsp : g.spent = []
  · by_cases hav : g.available = []
    · rw [hav, List.countP_nil, Nat.zero_add]
      by_cases hone : g.unconfirmed.length = 1
      · exact List.countP_le_length.trans hone.le
      · rw [hidden_countP fun t ht => (h.unconfirmed hsp hav t ht).trans (decide_eq_false hone)]
        exact Nat.zero_le _
    · obtain ⟨⟨_,hl,hi,hhid,-⟩,hunc⟩ := h.available hsp hav
      rw [← hl, cursor_countP hi hhid, hidden_countP hunc]
  · obtain ⟨-,hav,hunc⟩ := h.spent hsp
    rw [hidden_countP hav, hidden_countP hunc]
    exact Nat.zero_le _

theorem filter_visible_le {l : List Transfer} {q : Transfer → Bool} {ki : KeyImage}
    (hq : ∀ t, q t = true → t.visible = true) : ((l.filter q).filter fun t => t.isFor ki).length ≤
      (l.filter fun t => t.isFor ki).countP fun t => t.visible := by
  rw [List.countP_eq_length_filter, List.filter_filter, List.filter_filter]
  apply List.Sublist.length_le
  apply List.monotone_filter_right
  intro t ht
  rw [Bool.and_eq_true] at ht ⊢
  exact ⟨hq t ht.2,ht.1⟩

/-- After any calls, of the transfers with one key image at most one is spent,
and then only this one is visible. Otherwise exactly one of the available ones
is visible, an earliest. Otherwise an unconfirmed one is visible if it is the
only one. The balance counts at most one of them. -/
theorem transfers_visible {c : TransfersContainer} (h : Called c) (keyImage : KeyImage) :
    let g := group c.toTransfers keyImage
    g.spent.length ≤ 1 ∧
    (g.spent ≠ [] → (∀ p ∈ g.spent, p.output.visible = true) ∧
      (∀ t ∈ g.available, t.visible = false) ∧ ∀ t ∈ g.unconfirmed, t.visible = false) ∧
    (g.spent = [] → g.available ≠ [] → (g.available.countP fun t => t.visible) = 1 ∧
      (∃ t ∈ g.available, t.visible = true ∧ ∀ u ∈ g.available, t.place ≤ u.place) ∧
      ∀ t ∈ g.unconfirmed, t.visible = false) ∧
    (g.spent = [] → g.available = [] →
      ∀ t ∈ g.unconfirmed, (t.visible = true ↔ g.unconfirmed.length = 1)) ∧
    ∀ currency transactionSpendableAge now flags,
      ((getOutputs currency transactionSpendableAge now c flags).filter
        fun t => t.isFor keyImage).length ≤ 1 := by
  intro g
  have hg : Shown g := called_settled h keyImage
  refine ⟨hg.once,hg.spent,?_,?_,?_⟩
  · intro hsp hav
    obtain ⟨⟨d,hl,hi,hhid,hlds⟩,hunc⟩ := hg.available hsp hav
    refine ⟨?_,⟨d.item,?_,hi,?_⟩,hunc⟩
    · rw [← hl]
      exact cursor_countP hi hhid
    · rw [← hl]
      exact d.item_mem
    · intro u hu
      rw [← hl] at hu
      exact hlds.least hu rfl
  · intro hsp hav t ht
    rw [hg.unconfirmed hsp hav t ht, decide_eq_true_iff]
  · intro currency transactionSpendableAge now flags
    apply le_trans _ hg.single
    rw [getOutputs, List.filter_append, List.length_append]
    apply Nat.add_le_add
    · apply filter_visible_le
      intro t ht
      exact (Bool.and_eq_true_iff.mp ht).1
    · split_ifs
      · apply filter_visible_le
        intro t ht
        exact (Bool.and_eq_true_iff.mp ht).1
      · exact Nat.zero_le _

def sampleContainer : TransfersContainer :=
  left (addTransaction ⟨unconfirmedHeight, 0, 0⟩ (sampleReader 3 [])
    [sampleTransfer 300 unconfirmedIndex 0 7]
    (left (addTransaction ⟨4, 0, 2⟩ (sampleReader 2 []) [sampleTransfer 200 11 0 7]
      (left (addTransaction ⟨4, 0, 1⟩ (sampleReader 1 []) [sampleTransfer 100 10 0 7]
        .empty)))))

theorem transfers_visible_sample :
    ((group sampleContainer.toTransfers 7).available.map fun t => (t.amount, t.visible)) =
      [(100, true), (200, false)] ∧
    ((group sampleContainer.toTransfers 7).available.countP fun t => t.visible) = 1 ∧
    ∀ t ∈ (group sampleContainer.toTransfers 7).unconfirmed, t.visible = false := by
  have hcd : Called sampleContainer := .add (.add (.add .empty _ _ _) _ _ _) _ _ _
  obtain ⟨-,-,hav,-⟩ := transfers_visible hcd 7
  obtain ⟨hone,-,hhid⟩ := hav (by decide +kernel) (by decide +kernel)
  exact ⟨by decide +kernel,hone,hhid⟩

end Orbis.WalletShown
