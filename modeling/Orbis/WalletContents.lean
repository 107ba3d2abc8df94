import Orbis.WalletMoves

/-!
# The transfers without their visibility

Which transfers are in which container does not depend on what is shown. The
contents of the containers after an operation are given in closed form: a
deletion returns what the transaction spent and drops what it received, a
confirmation moves what it received, and an addition appends outputs and then
spends one transfer at a time.
-/

set_option autoImplicit false

namespace Orbis.WalletContents

open FaultState ListCursor ChainTypes WalletTransfers WalletMoves

variable {s : Transfers} {hash : Hash} {blk : TransactionBlockInfo} {tx : TransactionReader}
  {transfers : List TransactionOutputInformationIn} {gi : List ℕ}

section Cores

def core (t : Transfer) : Transfer := t.show false

def spentCore (p : SpentTransfer) : SpentTransfer := { p with output := core p.output }

def contents (s : Transfers) : Transfers where
  unconfirmed := s.unconfirmed.map core
  available := s.available.map core
  spent := s.spent.map spentCore

variable {t : Transfer} {ki : KeyImage} {vis : Bool}

@[simp] theorem core_update : core (t.update ki vis) = core t := by
  unfold Transfer.update
  split_ifs <;> rfl

@[simp] theorem spentCore_update (p : SpentTransfer) :
    spentCore (p.update ki vis) = spentCore p := by
  show ({ p with output := core (p.output.update ki vis) } : SpentTransfer) = _
  rw [core_update]
  rfl

theorem map_core_update (l : List Transfer) :
    (l.map (Transfer.update ki vis)).map core = l.map core := by
  rw [List.map_map]
  apply List.map_congr_left
  intro t _
  exact core_update

theorem map_spentCore_update (l : List SpentTransfer) :
    (l.map (SpentTransfer.update ki vis)).map spentCore = l.map spentCore := by
  rw [List.map_map]
  apply List.map_congr_left
  intro p _
  exact spentCore_update p

theorem map_core_showEarliest (l : List Transfer) : (showEarliest ki l).map core = l.map core := by
  unfold showEarliest
  dsimp only
  cases hlst : least Transfer.place (fun t => t.isFor ki) (l.map (Transfer.update ki false)) with
  | none => exact map_core_update l
  | some c =>
    have hl := (least_some hlst).1
    calc (c.replace (c.item.show true)).map core = c.list.map core := by
          rw [Cursor.replace, Cursor.list, List.map_append, List.map_append, List.map_cons,
            List.map_cons]
          rfl
      _ = l.map core := by rw [hl, map_core_update]

@[simp] theorem contents_refresh {kind : OutputKind} : contents (s.refresh kind) = contents s := by
  cases kind with
  | multisignature _ => rfl
  | key _ _ =>
    unfold Transfers.refresh Transfers.updateTransfersVisibility contents
    dsimp only
    split_ifs
    · rw [map_core_update, map_core_update, map_spentCore_update]
    · rw [map_core_update, map_core_showEarliest]
    · rw [map_core_update]

end Cores

def deleted (hash : Hash) (g : Transfers) : Transfers where
  unconfirmed := g.unconfirmed.filter fun t => !decide (t.transactionHash = hash)
  available := (g.available ++ (g.spent.filter fun p =>
      decide (p.spendingTransactionHash = hash)).map SpentTransfer.output).filter
    fun t => !decide (t.transactionHash = hash)
  spent := g.spent.filter fun p => !decide (p.spendingTransactionHash = hash)

theorem release_contents {c : Cursor SpentTransfer} :
    contents (s.release c) =
      { contents s with
        available := (contents s).available ++ [(spentCore c.item).output]
        spent := (c.map spentCore).erase } := by
  rw [Transfers.release, contents_refresh, Cursor.map_erase]
  unfold contents
  dsimp only
  rw [List.map_append]
  rfl

theorem dropUnconfirmed_contents {c : Cursor Transfer} : contents (s.dropUnconfirmed c) =
      { contents s with unconfirmed := (c.map core).erase } := by
  rw [Transfers.dropUnconfirmed, contents_refresh, Cursor.map_erase]
  rfl

theorem dropAvailable_contents {c : Cursor Transfer} :
    contents (s.dropAvailable c) = { contents s with available := (c.map core).erase } := by
  rw [Transfers.dropAvailable, contents_refresh, Cursor.map_erase]
  rfl

theorem foldl_output {l : List SpentTransfer} {r : List Transfer × List Transfer} :
    l.foldl (fun r p => (r.1, r.2 ++ [p.output])) r = (r.1, r.2 ++ l.map SpentTransfer.output) := by
  induction l generalizing r with
  | nil => rw [List.map_nil, List.append_nil]; rfl
  | cons _ _ ih => rw [List.foldl_cons, ih, List.append_assoc, List.map_cons]; rfl

theorem foldl_same {α β : Type} (l : List α) (r : β) : l.foldl (fun r _ => r) r = r := by
  induction l with
  | nil => rfl
  | cons _ _ ih => exact ih

theorem releaseAll_contents :
    contents (Transfers.releaseAll hash s.spent.length s) =
      { contents s with
        available := (contents s).available ++ ((contents s).spent.filter fun p =>
          decide (p.spendingTransactionHash = hash)).map SpentTransfer.output
        spent := (contents s).spent.filter fun p =>
          !decide (p.spendingTransactionHash = hash) } := by
  obtain ⟨hsp,hr⟩ : _ ∧ ((contents (Transfers.releaseAll hash s.spent.length s)).unconfirmed,
      (contents (Transfers.releaseAll hash s.spent.length s)).available) = _ :=
    eraseFound_image spentCore (fun s => (contents s).spent)
      (fun p => decide (p.spendingTransactionHash = hash))
      (fun s => ((contents s).unconfirmed, (contents s).available))
      (fun r p => (r.1, r.2 ++ [p.output])) (fun _ => rfl) (fun _ => rfl)
      (fun s c _ => ⟨congrArg Transfers.spent release_contents,
        congrArg (fun g => (g.unconfirmed, g.available)) release_contents⟩) s.spent.length s
      (List.length_map _).le
  rw [foldl_output] at hr
  obtain ⟨hunc,hav⟩ := Prod.mk.inj hr
  exact Transfers.ext hunc hav hsp

theorem dropAllUnconfirmed_contents :
    contents (Transfers.dropAllUnconfirmed hash s.unconfirmed.length s) =
      { contents s with
        unconfirmed := (contents s).unconfirmed.filter fun t =>
          !decide (t.transactionHash = hash) } := by
  obtain ⟨hunc,hr⟩ : _ ∧
      ((contents (Transfers.dropAllUnconfirmed hash s.unconfirmed.length s)).available,
      (contents (Transfers.dropAllUnconfirmed hash s.unconfirmed.length s)).spent) = _ :=
    eraseFound_image core (fun s => (contents s).unconfirmed)
      (fun t => decide (t.transactionHash = hash))
      (fun s => ((contents s).available, (contents s).spent)) (fun r _ => r)
      (fun _ => rfl) (fun _ => rfl)
      (fun s c _ => ⟨congrArg Transfers.unconfirmed dropUnconfirmed_contents,
        congrArg (fun g => (g.available, g.spent)) dropUnconfirmed_contents⟩)
      s.unconfirmed.length s (List.length_map _).le
  rw [foldl_same] at hr
  obtain ⟨hav,hsp⟩ := Prod.mk.inj hr
  exact Transfers.ext hunc hav hsp

theorem dropAllAvailable_contents :
    contents (Transfers.dropAllAvailable hash s.available.length s) =
      { contents s with
        available := (contents s).available.filter fun t =>
          !decide (t.transactionHash = hash) } := by
  obtain ⟨hav,hr⟩ : _ ∧
      ((contents (Transfers.dropAllAvailable hash s.available.length s)).unconfirmed,
      (contents (Transfers.dropAllAvailable hash s.available.length s)).spent) = _ :=
    eraseFound_image core (fun s => (contents s).available)
      (fun t => decide (t.transactionHash = hash))
      (fun s => ((contents s).unconfirmed, (contents s).spent)) (fun r _ => r)
      (fun _ => rfl) (fun _ => rfl)
      (fun s c _ => ⟨congrArg Transfers.available dropAvailable_contents,
        congrArg (fun g => (g.unconfirmed, g.spent)) dropAvailable_contents⟩)
      s.available.length s (List.length_map _).le
  rw [foldl_same] at hr
  obtain ⟨hunc,hsp⟩ := Prod.mk.inj hr
  exact Transfers.ext hunc hav hsp

theorem deleteTransactionTransfers_contents (s : Transfers) :
    contents (s.deleteTransactionTransfers hash) = deleted hash (contents s) := by
  unfold Transfers.deleteTransactionTransfers deleted
  dsimp only
  rw [dropAllAvailable_contents, dropAllUnconfirmed_contents, releaseAll_contents]

section Reception

def received (block : TransactionBlockInfo) (tx : TransactionReader)
    (transfers : List TransactionOutputInformationIn) (g : Transfers) : Transfers :=
  let stored := transfers.map fun t => core (stored block tx t)
  if block.height = unconfirmedHeight then { g with unconfirmed := g.unconfirmed ++ stored }
  else { g with available := g.available ++ stored }

def receive (block : TransactionBlockInfo) (tx : TransactionReader)
    (transfers : List TransactionOutputInformationIn) (s : Transfers) : Transfers :=
  transfers.foldl (fun s t => addOutput s block tx t) s

def Clash (t u : TransactionOutputInformationIn) : Prop :=
  (∃ m, u.kind = .multisignature m) ∧ t.descriptor = u.descriptor

structure Fresh (s : Transfers) (transfers : List TransactionOutputInformationIn) : Prop where
  unknown : ∀ t ∈ transfers, s.exists t = false
  apart : transfers.Pairwise fun t u => ¬ Clash t u

structure AllFit (s : Transfers) (block : TransactionBlockInfo)
    (transfers : List TransactionOutputInformationIn) : Prop where
  indexed : ∀ t ∈ transfers,
    (block.height = unconfirmedHeight ↔ t.globalOutputIndex = unconfirmedIndex)
  fresh : block.height ≠ unconfirmedHeight → Fresh s transfers

variable {t u : TransactionOutputInformationIn} {c : TransfersContainer}

theorem addOutput_contents (s : Transfers) :
    contents (addOutput s blk tx t) = received blk tx [t] (contents s) := by
  unfold addOutput received
  split_ifs with hblock
  · rw [Transfers.addUnconfirmed, contents_refresh]
    unfold contents
    dsimp only
    rw [List.map_append]
    rfl
  · rw [Transfers.addAvailable, contents_refresh]
    unfold contents
    dsimp only
    rw [List.map_append]
    rfl

theorem received_nil : received blk tx [] s = s := by
  unfold received
  dsimp only
  rw [List.map_nil, List.append_nil, List.append_nil]
  split_ifs <;> rfl

theorem receive_contents (s : Transfers) :
    contents (receive blk tx transfers s) = received blk tx transfers (contents s) := by
  induction transfers generalizing s with
  | nil => exact received_nil.symm
  | cons _ _ ih =>
    rw [receive, List.foldl_cons, ← receive, ih, addOutput_contents]
    unfold received
    split_ifs with hblock
    · dsimp only
      rw [List.append_assoc]
      rfl
    · dsimp only
      rw [List.append_assoc]
      rfl

theorem exists_iff : s.exists t = true ↔ (∃ m, t.kind = .multisignature m) ∧
      ((∃ u ∈ s.available, u.descriptor = t.descriptor) ∨
        ∃ p ∈ s.spent, p.output.descriptor = t.descriptor) := by
  unfold Transfers.exists
  cases t.kind with
  | key _ _ => simp
  | multisignature _ => simp

theorem exists_contents : (contents s).exists t = s.exists t := by
  apply Bool.eq_iff_iff.mpr
  rw [exists_iff, exists_iff]
  apply and_congr_right
  intro _
  apply or_congr
  · simp [contents, core, Transfer.show]
  · simp [contents, spentCore, core, Transfer.show]

theorem fresh_cons {s' : Transfers}
    (h : ∀ u : TransactionOutputInformationIn, s'.exists u = true ↔ s.exists u = true ∨ Clash t u) :
    Fresh s (t :: transfers) ↔ s.exists t = false ∧ Fresh s' transfers := by
  have hff : ∀ u, s'.exists u = false ↔ s.exists u = false ∧ ¬ Clash t u := by
    intro u
    rw [← Bool.not_eq_true, ← Bool.not_eq_true, h, not_or]
  constructor
  · rintro ⟨hunk,ha⟩
    obtain ⟨hfst,hlat⟩ := List.pairwise_cons.mp ha
    refine ⟨hunk t (List.mem_cons_self ..),?_,hlat⟩
    intro u hu
    exact (hff u).mpr ⟨hunk u (List.mem_cons_of_mem _ hu),hfst u hu⟩
  · rintro ⟨hfst,hunk,ha⟩
    constructor
    · exact List.forall_mem_cons.mpr ⟨hfst,fun u hu => ((hff u).mp (hunk u hu)).1⟩
    · exact List.pairwise_cons.mpr ⟨fun u hu => ((hff u).mp (hunk u hu)).2,ha⟩

theorem exists_append {t : Transfer} {unconfirmed : List Transfer} :
    Transfers.exists ⟨unconfirmed, s.available ++ [t], s.spent⟩ u = true ↔
      s.exists u = true ∨ Clash t.toTransactionOutputInformationIn u := by
  rw [exists_iff, exists_iff, Clash, ← and_or_left]
  apply and_congr_right
  intro _
  simp only [List.mem_append, List.mem_singleton, or_and_right, exists_or, exists_eq_left]
  rw [or_right_comm]

theorem exists_addOutput (tx : TransactionReader) (hblock : blk.height ≠ unconfirmedHeight) :
    (addOutput s blk tx t).exists u = true ↔ s.exists u = true ∨ Clash t u := by
  rw [← exists_contents, addOutput_contents, received, if_neg hblock, ← exists_contents (s := s)]
  exact exists_append

theorem allFit_cons (tx : TransactionReader) : AllFit s blk (t :: transfers) ↔
    OutputFits s blk t ∧ AllFit (addOutput s blk tx t) blk transfers := by
  constructor
  · rintro ⟨hixd,hfr⟩
    obtain ⟨hfst,hlat⟩ := List.forall_mem_cons.mp hixd
    have hc := fun hblock => (fresh_cons fun _ => exists_addOutput tx hblock).mp (hfr hblock)
    exact ⟨⟨hfst,fun hblock => (hc hblock).1⟩,hlat,fun hblock => (hc hblock).2⟩
  · rintro ⟨⟨hfst,hunk⟩,hixd,hfr⟩
    refine ⟨List.forall_mem_cons.mpr ⟨hfst,hixd⟩,?_⟩
    intro hblock
    exact (fresh_cons fun _ => exists_addOutput tx hblock).mpr ⟨hunk hblock,hfr hblock⟩

theorem addTransactionOutputs_ok (h : AllFit c.toTransfers blk transfers) :
    addTransactionOutputs blk tx transfers c = .ok (!transfers.isEmpty)
        { c with toTransfers := receive blk tx transfers c.toTransfers } := by
  induction transfers generalizing c with
  | nil => rfl
  | cons _ _ ih =>
    obtain ⟨hf,hr⟩ := (allFit_cons tx).mp h
    rw [addTransactionOutputs, bind_of_ok (addTransactionOutput_ok hf), bind_of_ok (ih hr)]
    rfl

theorem addTransactionOutputs_error (tx : TransactionReader)
    (h : ¬ AllFit c.toTransfers blk transfers) :
    ∃ e c', addTransactionOutputs blk tx transfers c = .error e c' := by
  induction transfers generalizing c with
  | nil =>
    exact absurd ⟨by simp,fun _ => ⟨by simp,by simp⟩⟩ h
  | cons t transfers ih =>
    rw [addTransactionOutputs]
    by_cases hf : OutputFits c.toTransfers blk t
    · rw [bind_of_ok (addTransactionOutput_ok hf)]
      have hr : ¬ AllFit (addOutput c.toTransfers blk tx t) blk transfers :=
        fun hr => h ((allFit_cons tx).mpr ⟨hf,hr⟩)
      obtain ⟨e,c',he⟩ := ih (c := { c with toTransfers := addOutput c.toTransfers blk tx t }) hr
      exact ⟨e,c',bind_of_error he⟩
    · obtain ⟨e,he⟩ := addTransactionOutput_error tx hf
      exact ⟨e,c,bind_of_error he⟩

end Reception

variable {g : Transfers} {inputs : List TransactionInput} {spent : Bool}

variable {cur : Cursor Transfer}

section Confirmation

def confirmedAt (block : TransactionBlockInfo) (globalIndices : List ℕ) (t : Transfer) : Transfer :=
  confirmed block (globalIndices.getD t.outputInTransaction 0) t

def waiting (hash : Hash) (g : Transfers) : List Transfer :=
  g.unconfirmed.filter fun t => decide (t.transactionHash = hash)

def moved (block : TransactionBlockInfo) (hash : Hash) (globalIndices : List ℕ) (g : Transfers) :
    Transfers where
  unconfirmed := g.unconfirmed.filter fun t => !decide (t.transactionHash = hash)
  available := g.available ++ (waiting hash g).map (confirmedAt block globalIndices)
  spent := g.spent

structure AllConfirm (block : TransactionBlockInfo) (hash : Hash) (globalIndices : List ℕ)
    (s : Transfers) : Prop where
  indexed : ∀ t ∈ waiting hash s, t.outputInTransaction < globalIndices.length
  fresh : Fresh s ((waiting hash s).map fun t =>
    (confirmedAt block globalIndices t).toTransactionOutputInformationIn)

variable {c : TransfersContainer} {t : Transfer}

theorem confirm_contents (t : Transfer) :
    contents (s.confirm cur t) =
      { contents s with
        unconfirmed := (cur.map core).erase
        available := (contents s).available ++ [core t] } := by
  rw [Transfers.confirm, contents_refresh, Cursor.map_erase]
  unfold contents
  dsimp only
  rw [List.map_append]
  rfl

theorem exists_confirm {u : TransactionOutputInformationIn} :
    (contents (s.confirm cur t)).exists u = true ↔
      (contents s).exists u = true ∨ Clash t.toTransactionOutputInformationIn u := by
  rw [confirm_contents]
  exact exists_append

theorem waiting_none (h : find (fun t => decide (t.transactionHash = hash)) s.unconfirmed = none) :
    waiting hash (contents s) = [] := by
  apply List.filter_eq_nil_iff.mpr
  intro t ht
  obtain ⟨u,hu,rfl⟩ := List.mem_map.mp ht
  exact Bool.eq_false_iff.mp (find_none.mp h u hu)

theorem waiting_length (s : Transfers) :
    (waiting hash (contents s)).length ≤ s.unconfirmed.length :=
  calc (waiting hash (contents s)).length
    _ ≤ (contents s).unconfirmed.length := List.length_filter_le _ _
    _ = s.unconfirmed.length := List.length_map _

theorem moved_of_none (h : waiting hash g = []) : moved blk hash gi g = g := by
  have hall : g.unconfirmed.filter (fun t => !decide (t.transactionHash = hash)) =
      g.unconfirmed := by
    apply List.filter_eq_self.mpr
    intro t ht
    rw [Bool.eq_false_iff.mpr (List.filter_eq_nil_iff.mp h t ht)]
    rfl
  rw [moved, h, hall, List.map_nil, List.append_nil]

theorem waiting_found
    (h : find (fun t => decide (t.transactionHash = hash)) s.unconfirmed = some cur)
    (ht : t = confirmedAt blk gi cur.item) :
    waiting hash (contents s) = core cur.item :: waiting hash (contents (s.confirm cur t)) ∧
      moved blk hash gi (contents (s.confirm cur t)) = moved blk hash gi (contents s) := by
  obtain ⟨hl,hi,hbef⟩ := find_some h
  have hwh : (contents s).unconfirmed = (cur.map core).list := by
    rw [Cursor.map_list, hl]
    rfl
  have hfd : decide ((cur.map core).item.transactionHash = hash) = true := hi
  have hs : ∀ u ∈ (cur.map core).before, decide (u.transactionHash = hash) = false := by
    intro u hu
    obtain ⟨v,hv,rfl⟩ := List.mem_map.mp hu
    exact hbef v hv
  have hfst : waiting hash (contents s) =
      core cur.item :: waiting hash (contents (s.confirm cur t)) := by
    rw [waiting, waiting, confirm_contents, hwh]
    exact Cursor.filter_found hfd hs
  have hout : (!decide ((cur.map core).item.transactionHash = hash)) = false :=
    congrArg Bool.not hfd
  refine ⟨hfst,?_⟩
  rw [moved, moved, hfst, hwh, ← Cursor.filter_erase (cur.map core) hout, List.map_cons, ht,
    confirm_contents, List.append_assoc]
  rfl

theorem allConfirm_found
    (h : find (fun t => decide (t.transactionHash = hash)) s.unconfirmed = some cur)
    (ht : t = confirmedAt blk gi cur.item) : AllConfirm blk hash gi (contents s) ↔
      cur.item.outputInTransaction < gi.length ∧
      s.exists t.toTransactionOutputInformationIn = false ∧
      AllConfirm blk hash gi (contents (s.confirm cur t)) := by
  have hfst := (waiting_found h ht).1
  have hc : Fresh (contents s) ((waiting hash (contents s)).map fun t =>
        (confirmedAt blk gi t).toTransactionOutputInformationIn) ↔
      s.exists t.toTransactionOutputInformationIn = false ∧
      Fresh (contents (s.confirm cur t)) ((waiting hash (contents (s.confirm cur t))).map
        fun t => (confirmedAt blk gi t).toTransactionOutputInformationIn) := by
    rw [hfst, List.map_cons, ← exists_contents, ht]
    exact fresh_cons fun _ => exists_confirm
  constructor
  · rintro ⟨hixd,hfr⟩
    rw [hfst] at hixd
    obtain ⟨hix,hlat⟩ := List.forall_mem_cons.mp hixd
    obtain ⟨hunk,hr⟩ := hc.mp hfr
    exact ⟨hix,hunk,hlat,hr⟩
  · rintro ⟨hix,hunk,hlat,hr⟩
    refine ⟨?_,hc.mpr ⟨hunk,hr⟩⟩
    rw [hfst]
    exact List.forall_mem_cons.mpr ⟨hix,hlat⟩

section Rounds

variable {rs : ℕ} {cursor : Cursor Transfer}
  (hfind : find (fun t => decide (t.transactionHash = hash)) c.unconfirmed = some cursor)

include hfind

theorem confirmTransfers_round (hix : cursor.item.outputInTransaction < gi.length)
    (hunk : c.exists (confirmedAt blk gi
      cursor.item).toTransactionOutputInformationIn = false) :
    confirmTransfers blk hash gi (rs + 1) c =
      confirmTransfers blk hash gi rs { c with
        toTransfers := c.confirm cursor (confirmedAt blk gi cursor.item) } := by
  have hget : gi[cursor.item.outputInTransaction]? =
      some (gi.getD cursor.item.outputInTransaction 0) := by
    rw [List.getD_eq_getElem?_getD, List.getElem?_eq_getElem hix]
    rfl
  rw [confirmTransfers, get_bind, hfind]
  dsimp only
  rw [hget]
  dsimp only
  rw [confirmedAt] at hunk
  rw [if_neg (Bool.eq_false_iff.mp hunk)]
  rfl

theorem confirmTransfers_refused (h : ¬ (cursor.item.outputInTransaction < gi.length ∧
      c.exists (confirmedAt blk gi cursor.item).toTransactionOutputInformationIn = false)) :
    ∃ e, confirmTransfers blk hash gi (rs + 1) c = .error e c := by
  rw [confirmTransfers, get_bind, hfind]
  dsimp only
  by_cases hix : cursor.item.outputInTransaction < gi.length
  · have hex : c.exists (confirmedAt blk gi
        cursor.item).toTransactionOutputInformationIn = true := by
      by_contra hnot
      exact h ⟨hix,Bool.eq_false_iff.mpr hnot⟩
    rw [confirmedAt, List.getD_eq_getElem?_getD, List.getElem?_eq_getElem hix,
      Option.getD_some] at hex
    rw [List.getElem?_eq_getElem hix]
    dsimp only
    rw [if_pos hex]
    exact ⟨.alreadyExists,rfl⟩
  · rw [List.getElem?_eq_none (Nat.not_lt.mp hix)]
    exact ⟨.fewIndices,rfl⟩

end Rounds

theorem confirmTransfers_ok (rs : ℕ) (hrds : (waiting hash (contents c.toTransfers)).length ≤ rs)
    (h : AllConfirm blk hash gi (contents c.toTransfers)) :
    ∃ s, confirmTransfers blk hash gi rs c = .ok () { c with toTransfers := s } ∧
      contents s = moved blk hash gi (contents c.toTransfers) := by
  induction rs generalizing c with
  | zero =>
    have hnil := List.length_eq_zero_iff.mp (Nat.le_zero.mp hrds)
    exact ⟨c.toTransfers,rfl,(moved_of_none hnil).symm⟩
  | succ _ ih =>
    cases hfind : find (fun t => decide (t.transactionHash = hash)) c.unconfirmed with
    | none =>
      refine ⟨c.toTransfers,?_,(moved_of_none (waiting_none hfind)).symm⟩
      rw [confirmTransfers, get_bind, hfind]
      rfl
    | some cur =>
      obtain ⟨hix,hunk,hr⟩ := (allConfirm_found hfind rfl).mp h
      obtain ⟨hfst,hm⟩ := waiting_found hfind (rfl : _ = confirmedAt blk gi cur.item)
      rw [hfst, List.length_cons] at hrds
      rw [confirmTransfers_round hfind hix hunk]
      obtain ⟨s,hrun,hs⟩ := ih (c := { c with
        toTransfers := c.confirm cur (confirmedAt blk gi cur.item) })
        (Nat.le_of_succ_le_succ hrds) hr
      exact ⟨s,hrun,hs.trans hm⟩

theorem AllConfirm.of_none (h : waiting hash g = []) : AllConfirm blk hash gi g := by
  constructor
  · rw [h]
    simp
  · rw [h]
    exact ⟨by simp,by simp⟩

theorem confirmTransfers_error (rs : ℕ) (hrds : (waiting hash (contents c.toTransfers)).length ≤ rs)
    (h : ¬ AllConfirm blk hash gi (contents c.toTransfers)) :
    ∃ e s, confirmTransfers blk hash gi rs c = .error e { c with toTransfers := s } := by
  induction rs generalizing c with
  | zero => exact absurd (.of_none (List.length_eq_zero_iff.mp (Nat.le_zero.mp hrds))) h
  | succ _ ih =>
    cases hfind : find (fun t => decide (t.transactionHash = hash)) c.unconfirmed with
    | none => exact absurd (.of_none (waiting_none hfind)) h
    | some cur =>
      by_cases hrd : cur.item.outputInTransaction < gi.length ∧ c.exists (confirmedAt blk gi
            cur.item).toTransactionOutputInformationIn = false
      · rw [confirmTransfers_round hfind hrd.1 hrd.2]
        have hfst := (waiting_found hfind (rfl : _ = confirmedAt blk gi cur.item)).1
        rw [hfst, List.length_cons] at hrds
        exact ih (c := { c with
          toTransfers := c.confirm cur (confirmedAt blk gi cur.item) })
          (Nat.le_of_succ_le_succ hrds)
          fun hr => h ((allConfirm_found hfind rfl).mpr ⟨hrd.1,hrd.2,hr⟩)
      · obtain ⟨e,he⟩ := confirmTransfers_refused hfind hrd
        exact ⟨e,c.toTransfers,he⟩

end Confirmation

section Spending

inductive Spending (block : TransactionBlockInfo) (hash : Hash) :
    ℕ → List TransactionInput → Transfers → Bool → Transfers → Prop
  | done (i : ℕ) (g : Transfers) : Spending block hash i [] g false g
  | foreign {i : ℕ} {input : TransactionInput} {inputs : List TransactionInput} {g g' : Transfers}
      {added : Bool} (foreign : Foreign g input)
      (rest : Spending block hash (i + 1) inputs g added g') :
      Spending block hash i (input :: inputs) g added g'
  | spend {i : ℕ} {input : TransactionInput} {inputs : List TransactionInput} {g g' : Transfers}
      {added : Bool} {cursor : Cursor Transfer} (within : cursor.list = g.available)
      (chosen : Chosen g cursor input)
      (rest : Spending block hash (i + 1) inputs
        { g with
          available := cursor.erase
          spent := copyToSpent g.spent ⟨cursor.item, block, hash, i⟩ } added g') :
      Spending block hash i (input :: inputs) g true g'

variable {i : ℕ} {inp : TransactionInput} {cursor : Cursor Transfer} {c : TransfersContainer}

theorem spend_contents {hash : Hash} :
    contents (s.spend cursor blk hash i) =
      { contents s with
        available := (cursor.map core).erase
        spent := copyToSpent (contents s).spent ⟨core cursor.item, blk, hash, i⟩ } := by
  have hc : (copyToSpent s.spent ⟨cursor.item, blk, hash, i⟩).map spentCore =
      copyToSpent (s.spent.map spentCore) ⟨core cursor.item, blk, hash, i⟩ := by
    have hany : ((s.spent.map spentCore).any fun q =>
          decide (q.output.descriptor = (core cursor.item).descriptor)) =
        s.spent.any fun q => decide (q.output.descriptor = cursor.item.descriptor) := List.any_map
    unfold copyToSpent
    rw [hany]
    split_ifs
    · rfl
    · rw [List.map_append]
      rfl
  rw [Transfers.spend, contents_refresh, Cursor.map_erase]
  unfold contents
  dsimp only
  rw [hc]

theorem foreign_contents (h : Foreign s inp) : Foreign (contents s) inp := by
  cases inp with
  | base _ => trivial
  | key _ _ _ =>
    obtain ⟨hsp,hav,hunc⟩ := h
    exact ⟨List.forall_mem_map.mpr hsp,List.forall_mem_map.mpr hav, List.forall_mem_map.mpr hunc⟩
  | multisignature _ _ _ => exact List.forall_mem_map.mpr h

theorem chosen_contents (h : Chosen s cursor inp) : Chosen (contents s) (cursor.map core) inp := by
  cases inp with
  | base _ => exact h
  | key _ _ _ =>
    obtain ⟨hsp,hlds⟩ := h
    exact ⟨List.forall_mem_map.mpr hsp,hlds.holds,List.forall_mem_map.mpr hlds.before,
      List.forall_mem_map.mpr hlds.after⟩
  | multisignature _ _ _ =>
    exact ⟨h.1,List.forall_mem_map.mpr h.2⟩

theorem addTransactionInputs_ok {added : Bool} {c' : TransfersContainer}
    (h : addTransactionInputs blk tx i inputs c = .ok added c') :
    ∃ s, c' = { c with toTransfers := s } ∧
      Spending blk tx.transactionHash i inputs (contents c.toTransfers) added (contents s) := by
  induction inputs generalizing i c added with
  | nil =>
    cases h
    exact ⟨_,rfl,.done i _⟩
  | cons inp _ ih =>
    obtain ⟨_,_,hfst,h⟩ := bind_ok.mp h
    obtain ⟨_,_,ho,h⟩ := bind_ok.mp h
    cases h
    obtain ⟨s,hs,hr⟩ := ih ho
    rcases addTransactionInput_cases blk tx i inp c with
      ⟨-,e,he⟩ | ⟨hfgn,he⟩ | ⟨cursor,hl,hch,he⟩
    · rw [he] at hfst
      cases hfst
    · rw [he] at hfst
      cases hfst
      exact ⟨s,hs,.foreign (foreign_contents hfgn) hr⟩
    · rw [he] at hfst
      cases hfst
      refine ⟨s,hs,?_⟩
      rw [spend_contents] at hr
      apply Spending.spend _ (chosen_contents hch) hr
      rw [Cursor.map_list, hl]
      rfl

theorem Spending.unchanged {hash : Hash} {g' : Transfers}
    (h : Spending blk hash i inputs g spent g') (hsp : spent = false) : g' = g := by
  induction h with
  | done _ _ => rfl
  | foreign _ _ ih => exact ih hsp
  | spend _ _ _ _ => cases hsp

end Spending

section Calls

variable {c c' : TransfersContainer} {added : Bool}

structure Added (block : TransactionBlockInfo) (tx : TransactionReader)
    (transfers : List TransactionOutputInformationIn) (c : TransfersContainer) (spent : Bool)
    (s : Transfers) : Prop where
  height : c.currentHeight ≤ block.height
  unknown : c.transaction tx.transactionHash = none
  fit : AllFit c.toTransfers block transfers
  spending : Spending block tx.transactionHash 0 tx.inputs
    (received block tx transfers (contents c.toTransfers)) spent (contents s)

theorem addTransaction_ok (h : addTransaction blk tx transfers c = .ok added c') :
    ∃ spent s, Added blk tx transfers c spent s ∧ added = (!transfers.isEmpty || spent) ∧
      c' = TransfersContainer.record { c with toTransfers := s } blk tx added := by
  unfold addTransaction at h
  rw [get_bind] at h
  by_cases hheight : blk.height < c.currentHeight
  · rw [if_pos hheight] at h
    cases h
  rw [if_neg hheight, get_bind] at h
  by_cases hkn : (c.transaction tx.transactionHash).isSome
  · rw [if_pos hkn] at h
    cases h
  rw [if_neg hkn] at h
  have hunk := Option.not_isSome_iff_eq_none.mp hkn
  by_cases hfit : AllFit c.toTransfers blk transfers
  · rw [bind_of_ok (addTransactionOutputs_ok hfit)] at h
    obtain ⟨spent,d,hins,h⟩ := bind_ok.mp h
    obtain ⟨s,rfl,hspg⟩ := addTransactionInputs_ok hins
    rw [receive_contents] at hspg
    cases h
    exact ⟨spent,s,⟨Nat.not_lt.mp hheight,hunk,hfit,hspg⟩,rfl,rfl⟩
  · obtain ⟨_,d,he⟩ := addTransactionOutputs_error tx hfit
    rw [bind_of_error he] at h
    cases h

theorem Added.unchanged {s : Transfers} (h : Added blk tx transfers c spent s)
    (hn : (!transfers.isEmpty || spent) = false) : contents s = contents c.toTransfers := by
  obtain ⟨hemp,hu⟩ := Bool.or_eq_false_iff.mp hn
  have hnil : transfers = [] := by simpa using hemp
  rw [h.spending.unchanged hu, hnil, received_nil]

def marked (block : TransactionBlockInfo) (hash : Hash) (globalIndices : List ℕ) (g : Transfers) :
    Transfers :=
  { moved block hash globalIndices g with spent := g.spent.map (SpentTransfer.respend block hash) }

variable {info : TransactionInformation}

theorem respend_contents {s : Transfers} :
    contents { s with spent := s.spent.map (SpentTransfer.respend blk hash) } =
      { contents s with
        spent := (contents s).spent.map (SpentTransfer.respend blk hash) } := by
  have hc : ∀ p : SpentTransfer,
      spentCore (p.respend blk hash) = (spentCore p).respend blk hash := by
    intro p
    unfold SpentTransfer.respend
    by_cases h : p.spendingTransactionHash = hash
    · rw [if_pos h, if_pos (show (spentCore p).spendingTransactionHash = hash from h)]
      rfl
    · rw [if_neg h, if_neg (show ¬ (spentCore p).spendingTransactionHash = hash from h)]
  unfold contents
  dsimp only
  rw [List.map_map, List.map_map]
  congr 1
  apply List.map_congr_left
  intro p _
  exact hc p

section Mark

variable (hblock : blk.height ≠ unconfirmedHeight) (hinfo : c.transaction hash = some info)
  (hheight : info.blockHeight = unconfirmedHeight)

include hblock hinfo hheight

theorem mark_run : markTransactionConfirmed blk hash gi c =
    (do
      confirmTransfers blk hash gi c.unconfirmed.length
      onTransfers fun s => { s with spent := s.spent.map (SpentTransfer.respend blk hash) }
      pure true) { c with
        transactions := replaceTransaction (info.confirmed blk) c.transactions } := by
  rw [markTransactionConfirmed, if_neg hblock, get_bind, hinfo]
  dsimp only
  rw [if_neg (fun hne => hne hheight), modify_bind, get_bind]

theorem mark_ok (h : AllConfirm blk hash gi (contents c.toTransfers)) :
    ∃ s, markTransactionConfirmed blk hash gi c =
      .ok true { c with
        toTransfers := s
        transactions := replaceTransaction (info.confirmed blk) c.transactions } ∧
      contents s = marked blk hash gi (contents c.toTransfers) := by
  obtain ⟨s,hrun,hs⟩ := confirmTransfers_ok (c := { c with
    transactions := replaceTransaction (info.confirmed blk) c.transactions }) _ (waiting_length _) h
  refine ⟨{ s with spent := s.spent.map (SpentTransfer.respend blk hash) },?_,?_⟩
  · rw [mark_run hblock hinfo hheight, bind_of_ok hrun]
    rfl
  · rw [respend_contents, hs]
    rfl

theorem mark_error (h : ¬ AllConfirm blk hash gi (contents c.toTransfers)) :
    ∃ e s, markTransactionConfirmed blk hash gi c =
      .error e { c with
        toTransfers := s
        transactions := replaceTransaction (info.confirmed blk) c.transactions } := by
  obtain ⟨e,s,hrun⟩ := confirmTransfers_error (c := { c with
    transactions := replaceTransaction (info.confirmed blk) c.transactions }) _ (waiting_length _) h
  refine ⟨e,s,?_⟩
  rw [mark_run hblock hinfo hheight, bind_of_error hrun]

end Mark

theorem mark_unknown (hblock : blk.height ≠ unconfirmedHeight)
    (h : ∀ info, c.transaction hash = some info → info.blockHeight ≠ unconfirmedHeight) :
    markTransactionConfirmed blk hash gi c = .ok false c := by
  rw [markTransactionConfirmed, if_neg hblock, get_bind]
  cases hinfo : c.transaction hash with
  | none => rfl
  | some info =>
    dsimp only
    rw [if_pos (h info hinfo)]
    rfl

structure Marked (block : TransactionBlockInfo) (hash : Hash) (globalIndices : List ℕ)
    (c : TransfersContainer) (info : TransactionInformation) (s : Transfers) : Prop where
  confirmed : block.height ≠ unconfirmedHeight
  known : c.transaction hash = some info
  unconfirmed : info.blockHeight = unconfirmedHeight
  allConfirm : AllConfirm block hash globalIndices (contents c.toTransfers)
  contents : contents s = marked block hash globalIndices (contents c.toTransfers)

theorem markTransactionConfirmed_ok {found : Bool}
    (h : markTransactionConfirmed blk hash gi c = .ok found c') :
    c' = c ∨ ∃ info s, Marked blk hash gi c info s ∧ c' = { c with
      toTransfers := s
      transactions := replaceTransaction (info.confirmed blk) c.transactions } := by
  by_cases hblock : blk.height = unconfirmedHeight
  · rw [markTransactionConfirmed, if_pos hblock] at h
    cases h
  by_cases hkn : ∃ info, c.transaction hash = some info ∧ info.blockHeight = unconfirmedHeight
  · obtain ⟨info,hinfo,hheight⟩ := hkn
    by_cases hcf : AllConfirm blk hash gi (contents c.toTransfers)
    · obtain ⟨s,hrun,hs⟩ := mark_ok hblock hinfo hheight hcf
      rw [hrun] at h
      cases h
      exact .inr ⟨info,s,⟨hblock,hinfo,hheight,hcf,hs⟩,rfl⟩
    · obtain ⟨_,s,hrun⟩ := mark_error hblock hinfo hheight hcf
      rw [hrun] at h
      cases h
  · rw [mark_unknown hblock fun info hinfo hheight => hkn ⟨info,hinfo,hheight⟩] at h
    cases h
    exact .inl rfl

end Calls

end Orbis.WalletContents
