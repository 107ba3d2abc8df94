import Orbis.WalletShown
import Orbis.WalletContents

/-!
# What is shown follows from the contents

The flags of the transfers are a function of the contents of the containers:
a multisignature transfer is always shown, and a key transfer by what the
containers hold for its key image. Only where two available transfers with one
key image have the same place does the order inside the container decide. So
two containers with the same contents show the same.
-/

set_option autoImplicit false

namespace Orbis.WalletFlags

open FaultState ListCursor ChainTypes WalletTransfers WalletMoves WalletShown WalletContents

variable {keyImage ki : KeyImage}

section Plain

def transfers (s : Transfers) : List Transfer :=
  s.unconfirmed ++ (s.available ++ s.spent.map SpentTransfer.output)

def Plain (l : List Transfer) : Prop :=
  ∀ t ∈ l, (∃ m, t.kind = .multisignature m) → t.visible = true

variable {s : Transfers} {vis : Bool} {t : Transfer} {l l' : List Transfer}

theorem isFor_key (h : t.isFor ki = true) : ∃ ok, t.kind = .key ok ki := by
  have hd := of_decide_eq_true h
  unfold TransactionOutputInformationIn.descriptor at hd
  cases hk : t.kind with
  | key ok _ =>
    rw [hk] at hd
    cases hd
    exact ⟨ok,rfl⟩
  | multisignature _ =>
    rw [hk] at hd
    cases hd

theorem key_isFor {ok : PublicKey} (h : t.kind = .key ok ki) : t.isFor ki = true := by
  apply decide_eq_true
  unfold TransactionOutputInformationIn.descriptor
  rw [h]

theorem update_kind : (t.update ki vis).kind = t.kind := by
  unfold Transfer.update
  split_ifs <;> rfl

theorem plain_update (h : t.visible = true ∨ ∀ m, t.kind ≠ .multisignature m) :
    (∃ m, (t.update ki vis).kind = .multisignature m) → (t.update ki vis).visible = true := by
  rintro ⟨m,hm⟩
  rw [update_kind] at hm
  unfold Transfer.update
  split_ifs with hfor
  · obtain ⟨_,hk⟩ := isFor_key hfor
    rw [hk] at hm
    cases hm
  · rcases h with h | h
    · exact h
    · exact absurd hm (h m)

theorem plain_map_update (h : Plain l) : Plain (l.map (Transfer.update ki vis)) := by
  refine List.forall_mem_map.mpr ?_
  intro t ht
  apply plain_update
  by_cases hm : ∃ m, t.kind = .multisignature m
  · exact .inl (h t ht hm)
  · exact .inr (not_exists.mp hm)

theorem plain_showEarliest (h : Plain l) : Plain (showEarliest ki l) := by
  have hhid : Plain (l.map (Transfer.update ki false)) := plain_map_update h
  unfold showEarliest
  dsimp only
  cases hlst : least Transfer.place (fun t => t.isFor ki) (l.map (Transfer.update ki false)) with
  | none => exact hhid
  | some _ =>
    rw [← (least_some hlst).1] at hhid
    intro t ht
    rcases List.mem_append.mp ht with ht | ht
    · exact hhid t (Cursor.mem_list.mpr (.inl ht))
    · rcases List.mem_cons.mp ht with rfl | ht
      · exact fun _ => rfl
      · exact hhid t (Cursor.mem_list.mpr (.inr (.inr ht)))

theorem plain_append : Plain (l ++ l') ↔ Plain l ∧ Plain l' := List.forall_mem_append

theorem plain_transfers : Plain (transfers s) ↔
    Plain s.unconfirmed ∧ Plain s.available ∧ Plain (s.spent.map SpentTransfer.output) := by
  rw [transfers, plain_append, plain_append]

theorem plain_refresh (kind : OutputKind) (h : Plain (transfers s)) :
    Plain (transfers (s.refresh kind)) := by
  obtain ⟨hunc,hav,hsp⟩ := plain_transfers.mp h
  cases kind with
  | multisignature _ => exact h
  | key _ ki =>
    unfold Transfers.refresh Transfers.updateTransfersVisibility
    dsimp only
    split_ifs
    · have ho : (s.spent.map (SpentTransfer.update ki true)).map SpentTransfer.output =
          (s.spent.map SpentTransfer.output).map (Transfer.update ki true) := by
        rw [List.map_map, List.map_map]
        rfl
      refine plain_transfers.mpr ⟨plain_map_update hunc,plain_map_update hav,?_⟩
      dsimp only
      rw [ho]
      exact plain_map_update hsp
    · exact plain_transfers.mpr ⟨plain_map_update hunc,plain_showEarliest hav,hsp⟩
    · exact plain_transfers.mpr ⟨plain_map_update hunc,hav,hsp⟩

theorem plain_subset (h : Plain l) (hs : l' ⊆ l) : Plain l' := fun t ht => h t (hs ht)

theorem move_plain {s s' : Transfers} (hm : Move s s') (h : Plain (transfers s)) :
    Plain (transfers s') := by
  obtain ⟨hunc,hav,hsp⟩ := plain_transfers.mp h
  have hone : ∀ t : Transfer, t.visible = true → Plain [t] := by
    intro t ht u hu _
    rw [List.mem_singleton.mp hu]
    exact ht
  cases hm with
  | output _ =>
    unfold addOutput
    split_ifs
    · exact plain_refresh _ (plain_transfers.mpr ⟨plain_append.mpr ⟨hunc,hone _ rfl⟩,hav,hsp⟩)
    · exact plain_refresh _ (plain_transfers.mpr ⟨hunc,plain_append.mpr ⟨hav,hone _ rfl⟩,hsp⟩)
  | @spend cur _ _ _ _ within _ =>
    rw [← within] at hav
    apply plain_refresh
    refine plain_transfers.mpr ⟨hunc,plain_subset hav cur.erase_subset,?_⟩
    dsimp only
    unfold copyToSpent
    split_ifs
    · exact hsp
    · rw [List.map_append]
      refine plain_append.mpr ⟨hsp,?_⟩
      intro t ht
      rw [List.mem_singleton.mp ht]
      exact hav _ cur.item_mem
  | @confirm cur _ _ within _ =>
    rw [← within] at hunc
    apply plain_refresh
    refine plain_transfers.mpr ⟨plain_subset hunc cur.erase_subset,?_,hsp⟩
    refine plain_append.mpr ⟨hav,?_⟩
    intro t ht
    rw [List.mem_singleton.mp ht]
    exact hunc cur.item cur.item_mem
  | @respend blk hash =>
    refine plain_transfers.mpr ⟨hunc,hav,?_⟩
    dsimp only
    rw [List.map_map]
    have ho : SpentTransfer.output ∘ SpentTransfer.respend blk hash = SpentTransfer.output := by
      funext p
      exact respend_output blk hash p
    rw [ho]
    exact hsp
  | @release cur within =>
    rw [← within] at hsp
    apply plain_refresh
    refine plain_transfers.mpr ⟨hunc,?_,?_⟩
    · refine plain_append.mpr ⟨hav,?_⟩
      intro t ht
      rw [List.mem_singleton.mp ht]
      exact hsp _ (List.mem_map_of_mem cur.item_mem)
    · exact plain_subset hsp (List.map_subset _ cur.erase_subset)
  | @dropUnconfirmed cur within =>
    rw [← within] at hunc
    apply plain_refresh
    exact plain_transfers.mpr ⟨plain_subset hunc cur.erase_subset,hav,hsp⟩
  | @dropAvailable cur within =>
    rw [← within] at hav
    apply plain_refresh
    exact plain_transfers.mpr ⟨hunc,plain_subset hav cur.erase_subset,hsp⟩

theorem called_plain {c : TransfersContainer} (h : Called c) : Plain (transfers c.toTransfers) :=
  h.kept (I := fun s => Plain (transfers s)) (fun _ ht => (List.not_mem_nil ht).elim)
    fun _ _ => move_plain

end Plain

section Flags

variable (g : Transfers)

def availableFlag (t : Transfer) : Bool :=
  match t.kind with
  | .multisignature _ => true
  | .key _ keyImage =>
    !(g.spent.any fun p => p.output.isFor keyImage) &&
      g.available.all fun u => !u.isFor keyImage || decide (t.place ≤ u.place)

def unconfirmedFlag (t : Transfer) : Bool :=
  match t.kind with
  | .multisignature _ => true
  | .key _ keyImage =>
    !(g.spent.any fun p => p.output.isFor keyImage) &&
      (!(g.available.any fun u => u.isFor keyImage) &&
        decide ((g.unconfirmed.countP fun u => u.isFor keyImage) = 1))

def flagged : Transfers where
  unconfirmed := g.unconfirmed.map fun t => t.show (unconfirmedFlag g t)
  available := g.available.map fun t => t.show (availableFlag g t)
  spent := g.spent.map fun p => { p with output := p.output.show true }

def Untied (l : List Transfer) : Prop :=
  l.Pairwise fun t u => ∀ keyImage, t.isFor keyImage = true → u.isFor keyImage = true →
    t.place ≠ u.place

variable {g} {s : Transfers}

theorem spent_any : ((contents s).spent.any fun p => p.output.isFor ki) = true ↔
    (group s ki).spent ≠ [] := by
  rw [contents, List.any_map, List.any_eq_true, ne_eq, group, List.filter_eq_nil_iff]
  simp [spentCore, core]

theorem available_any : ((contents s).available.any fun u => u.isFor ki) = true ↔
    (group s ki).available ≠ [] := by
  rw [contents, List.any_map, List.any_eq_true, ne_eq, group, List.filter_eq_nil_iff]
  simp [core]

theorem unconfirmed_countP : ((contents s).unconfirmed.countP fun u => u.isFor ki) =
    (group s ki).unconfirmed.length := by
  rw [contents, List.countP_map, List.countP_eq_length_filter]
  rfl

theorem untied_group (ki : KeyImage) (h : Untied s.available) :
    (group s ki).available.Pairwise fun t u => t.place ≠ u.place := by
  refine (h.filter _).imp_of_mem ?_
  intro t u ht hu hne
  exact hne ki (List.mem_filter.mp ht).2 (List.mem_filter.mp hu).2

section Settled

variable (hsettled : Settled s) (hplain : Plain (transfers s))

include hsettled hplain

theorem visible_available (hunt : Untied s.available) {t : Transfer} (ht : t ∈ s.available) :
    t.visible = availableFlag (contents s) t := by
  unfold availableFlag
  cases hk : t.kind with
  | multisignature m => exact (plain_transfers.mp hplain).2.1 t ht ⟨m,hk⟩
  | key _ ki =>
    dsimp only
    have hshn := hsettled ki
    have hgrp : t ∈ (group s ki).available := List.mem_filter.mpr ⟨ht,key_isFor hk⟩
    by_cases hsp : (group s ki).spent = []
    · have hn : ((contents s).spent.any fun p => p.output.isFor ki) = false :=
        Bool.eq_false_iff.mpr fun hany => spent_any.mp hany hsp
      rw [hn, Bool.not_false, Bool.true_and]
      obtain ⟨⟨c,hl,hi,hhid,hlds⟩,-⟩ := hshn.available hsp (List.ne_nil_of_mem hgrp)
      have hunt := untied_group ki hunt
      rw [← hl] at hgrp hunt
      rcases List.mem_cons.mp (c.perm_list.mem_iff.mp hgrp) with rfl | hoth
      · rw [hi]
        symm
        rw [List.all_eq_true]
        refine List.forall_mem_map.mpr ?_
        intro u hu
        by_cases hfor : u.isFor ki = true
        · have hmem : u ∈ c.list := hl ▸ List.mem_filter.mpr ⟨hu,hfor⟩
          have hle : c.item.place ≤ u.place := hlds.least hmem rfl
          rw [decide_eq_true (show c.item.place ≤ (core u).place from hle), Bool.or_true]
        · rw [show (core u).isFor ki = false from Bool.eq_false_iff.mpr hfor]
          rfl
      · rw [hhid t hoth]
        symm
        rw [List.all_eq_false]
        obtain ⟨hmem,hfor⟩ := List.mem_filter.mp (hl ▸ c.item_mem)
        refine ⟨core c.item,List.mem_map_of_mem hmem,?_⟩
        have hne : c.item.place ≠ t.place := by
          have hfst := c.perm_list.pairwise hunt fun hne => hne.symm
          exact (List.pairwise_cons.mp hfst).1 t hoth
        have hlt : ¬ t.place ≤ (core c.item).place :=
          not_le.mpr (lt_of_le_of_ne (hlds.least hgrp rfl) hne)
        rw [show (core c.item).isFor ki = true from hfor, decide_eq_false hlt]
        exact Bool.false_ne_true
    · have hany : ((contents s).spent.any fun p => p.output.isFor ki) = true := spent_any.mpr hsp
      rw [hany]
      exact (hshn.spent hsp).2.1 t hgrp

theorem visible_unconfirmed {t : Transfer} (ht : t ∈ s.unconfirmed) :
    t.visible = unconfirmedFlag (contents s) t := by
  unfold unconfirmedFlag
  cases hk : t.kind with
  | multisignature m => exact (plain_transfers.mp hplain).1 t ht ⟨m,hk⟩
  | key _ ki =>
    dsimp only
    have hshn := hsettled ki
    have hgrp : t ∈ (group s ki).unconfirmed := List.mem_filter.mpr ⟨ht,key_isFor hk⟩
    by_cases hsp : (group s ki).spent = []
    · have hn : ((contents s).spent.any fun p => p.output.isFor ki) = false :=
        Bool.eq_false_iff.mpr fun hany => spent_any.mp hany hsp
      rw [hn, Bool.not_false, Bool.true_and]
      by_cases hav : (group s ki).available = []
      · have hn : ((contents s).available.any fun u => u.isFor ki) = false :=
          Bool.eq_false_iff.mpr fun hany => available_any.mp hany hav
        rw [hn, unconfirmed_countP]
        exact hshn.unconfirmed hsp hav t hgrp
      · rw [available_any.mpr hav]
        exact (hshn.available hsp hav).2 t hgrp
    · rw [spent_any.mpr hsp]
      exact (hshn.spent hsp).2.2 t hgrp

theorem visible_spent {p : SpentTransfer} (hp : p ∈ s.spent) : p.output.visible = true := by
  cases hk : p.output.kind with
  | multisignature m =>
    exact (plain_transfers.mp hplain).2.2 p.output (List.mem_map_of_mem hp) ⟨m,hk⟩
  | key _ ki =>
    have hgrp : p ∈ (group s ki).spent := List.mem_filter.mpr ⟨hp,key_isFor hk⟩
    exact ((hsettled ki).spent (List.ne_nil_of_mem hgrp)).1 p hgrp

theorem flagged_contents (hunt : Untied s.available) : flagged (contents s) = s := by
  have hs : ∀ {t : Transfer} {vis : Bool}, t.visible = vis → (core t).show vis = t := by
    rintro t vis rfl
    rfl
  apply Transfers.ext
  · show (s.unconfirmed.map core).map _ = s.unconfirmed
    rw [List.map_map]
    refine (List.map_congr_left ?_).trans (List.map_id _)
    exact fun t ht => hs (visible_unconfirmed hsettled hplain ht)
  · show (s.available.map core).map _ = s.available
    rw [List.map_map]
    refine (List.map_congr_left ?_).trans (List.map_id _)
    exact fun t ht => hs (visible_available hsettled hplain hunt ht)
  · show (s.spent.map spentCore).map _ = s.spent
    rw [List.map_map]
    refine (List.map_congr_left ?_).trans (List.map_id _)
    intro p hp
    show ({ p with output := (core p.output).show true } : SpentTransfer) = p
    rw [hs (visible_spent hsettled hplain hp)]

end Settled

structure Alike (g g' : Transfers) : Prop where
  unconfirmed : g.unconfirmed.Perm g'.unconfirmed
  available : g.available.Perm g'.available
  spent : g.spent.Perm g'.spent

variable {g' : Transfers}

theorem availableFlag_alike (h : Alike g g') : availableFlag g = availableFlag g' := by
  funext t
  unfold availableFlag
  cases t.kind with
  | multisignature _ => rfl
  | key _ _ =>
    dsimp only
    rw [h.spent.any_eq, h.available.all_eq]

theorem unconfirmedFlag_alike (h : Alike g g') : unconfirmedFlag g = unconfirmedFlag g' := by
  funext t
  unfold unconfirmedFlag
  cases t.kind with
  | multisignature _ => rfl
  | key _ _ =>
    dsimp only
    rw [h.spent.any_eq, h.available.any_eq, h.unconfirmed.countP_eq]

theorem flagged_alike (h : Alike g g') : Alike (flagged g) (flagged g') where
  unconfirmed := by
    show (g.unconfirmed.map _).Perm (g'.unconfirmed.map _)
    rw [unconfirmedFlag_alike h]
    exact h.unconfirmed.map _
  available := by
    show (g.available.map _).Perm (g'.available.map _)
    rw [availableFlag_alike h]
    exact h.available.map _
  spent := h.spent.map _

theorem untied_contents {s s' : Transfers} (h : (contents s).available.Perm (contents s').available)
    (hs : Untied s'.available) : Untied s.available := by
  have hc : Untied (contents s').available := List.pairwise_map.mpr hs
  have hb : Untied (contents s).available := by
    apply h.symm.pairwise hc
    intro t u hne ki hu ht
    exact (hne ki ht hu).symm
  exact List.pairwise_map.mp hb

theorem alike_of_contents {s s' : Transfers} (hs : Settled s) (hplain : Plain (transfers s))
    (hs' : Settled s') (hplain' : Plain (transfers s')) (hunt : Untied s'.available)
    (h : Alike (contents s) (contents s')) : Alike s s' := by
  have hf := flagged_alike h
  rw [flagged_contents hs hplain (untied_contents h.available hunt),
    flagged_contents hs' hplain' hunt] at hf
  exact hf

end Flags

section Order

variable {s s' : Transfers} {d d' : Cursor Transfer}

theorem visible_leads (hsettled : Settled s) (hsp : (group s ki).spent = [])
    (hl : d.list = s.available) (hfor : d.item.isFor ki = true) :
    d.item.visible = true ↔ Leads Transfer.place (fun t => t.isFor ki) d := by
  have hgrp : (d.narrow fun t => t.isFor ki).list = (group s ki).available := by
    rw [Cursor.narrow_list hfor, hl]
    rfl
  have hmem : d.item ∈ (group s ki).available := hgrp ▸ Cursor.item_mem _
  obtain ⟨⟨_,hc,hi,hhid,hlds⟩,-⟩ := (hsettled ki).available hsp (List.ne_nil_of_mem hmem)
  constructor
  · intro hv
    rcases Cursor.compare (hc.trans hgrp.symm) with heq | ⟨hoth,-⟩ | ⟨hoth,-⟩
    · rw [heq] at hlds
      exact .of_narrow hfor hlds
    · have hff := hhid _ (Cursor.mem_erase.mpr (.inl hoth))
      exact absurd (hff.symm.trans hv) Bool.false_ne_true
    · have hff := hhid _ (Cursor.mem_erase.mpr (.inr hoth))
      exact absurd (hff.symm.trans hv) Bool.false_ne_true
  · intro hd
    have heq := hlds.unique hd.narrow (hc.trans hgrp.symm)
    rw [heq] at hi
    exact hi

theorem leads_core : Leads Transfer.place (fun t => t.isFor ki) (d.map core) ↔
    Leads Transfer.place (fun t => t.isFor ki) d := by
  constructor
  · intro h
    exact ⟨h.holds,fun t ht => h.before (core t) (List.mem_map_of_mem ht),
      fun t ht => h.after (core t) (List.mem_map_of_mem ht)⟩
  · intro h
    exact ⟨h.holds,List.forall_mem_map.mpr h.before,List.forall_mem_map.mpr h.after⟩

theorem eq_of_core {t u : Transfer} (h : core t = core u) (hv : t.visible = u.visible) : t = u :=
  calc t = (core t).show t.visible := rfl
    _ = (core u).show u.visible := by rw [h, hv]
    _ = u := rfl

theorem eq_of_contents (hs : Settled s) (hplain : Plain (transfers s)) (hs' : Settled s')
    (hplain' : Plain (transfers s')) (h : contents s = contents s') : s = s' := by
  have hsp : ∀ ki, (group s ki).spent = [] ↔ (group s' ki).spent = [] := by
    intro ki
    rw [← not_iff_not]
    exact spent_any.symm.trans (h ▸ spent_any)
  apply Transfers.ext
  · apply Cursor.list_ext (congrArg Transfers.unconfirmed h)
    intro c c' hc hc' hco
    have hi : core c.item = core c'.item := congrArg Cursor.item hco
    apply eq_of_core hi
    rw [visible_unconfirmed hs hplain (hc ▸ c.item_mem),
      visible_unconfirmed hs' hplain' (hc' ▸ c'.item_mem), h]
    show unconfirmedFlag (contents s') (core c.item) = unconfirmedFlag (contents s') (core c'.item)
    rw [hi]
  · apply Cursor.list_ext (congrArg Transfers.available h)
    intro c c' hc hc' hco
    have hi : core c.item = core c'.item := congrArg Cursor.item hco
    have hki : c.item.kind = c'.item.kind := by
      show (core c.item).kind = (core c'.item).kind
      rw [hi]
    apply eq_of_core hi
    cases hk : c.item.kind with
    | multisignature m =>
      rw [(plain_transfers.mp hplain).2.1 c.item (hc ▸ c.item_mem) ⟨m,hk⟩,
        (plain_transfers.mp hplain').2.1 c'.item (hc' ▸ c'.item_mem) ⟨m,hki ▸ hk⟩]
    | key _ ki =>
      have hfor := key_isFor hk
      have hfor' := key_isFor (hki ▸ hk)
      by_cases hn : (group s ki).spent = []
      · apply Bool.eq_iff_iff.mpr
        rw [visible_leads hs hn hc hfor,
          visible_leads hs' ((hsp ki).mp hn) hc' hfor', ← leads_core, hco, leads_core]
      · rw [((hs ki).spent hn).2.1 c.item (List.mem_filter.mpr ⟨hc ▸ c.item_mem,hfor⟩),
          ((hs' ki).spent (mt (hsp ki).mpr hn)).2.1 c'.item
            (List.mem_filter.mpr ⟨hc' ▸ c'.item_mem,hfor'⟩)]
  · apply Cursor.list_ext (congrArg Transfers.spent h)
    intro c c' hc hc' hco
    have hi : spentCore c.item = spentCore c'.item := congrArg Cursor.item hco
    have ho : c.item.output = c'.item.output := by
      apply eq_of_core (congrArg SpentTransfer.output hi)
      rw [visible_spent hs hplain (hc ▸ c.item_mem), visible_spent hs' hplain' (hc' ▸ c'.item_mem)]
    calc c.item = { spentCore c.item with output := c.item.output } := rfl
      _ = { spentCore c'.item with output := c'.item.output } := by rw [hi, ho]
      _ = c'.item := rfl

end Order

end Orbis.WalletFlags
