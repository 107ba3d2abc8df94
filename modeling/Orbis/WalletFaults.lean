import Orbis.WalletFlags
import Orbis.WalletConfirm

/-!
# Calls that throw

An addition takes the outputs one after the other and then the inputs, and it
throws where it stands. Of a call that throws it is said here whether it left
the containers as they were: it did if nothing was taken before, which can be
told from the arguments and the containers before the call. A confirmation has
moved the transaction in the index before any of its own faults.
-/

set_option autoImplicit false

namespace Orbis.WalletFaults

open FaultState ListCursor ChainTypes WalletTransfers WalletMoves WalletContents WalletFlags
open WalletLedger WalletConfirm

variable {blk : TransactionBlockInfo} {tx : TransactionReader} {i : ℕ}
  {inputs ins : List TransactionInput} {cur : Cursor Transfer}
  {transfers : List TransactionOutputInformationIn} {hash : Hash}

section Inputs

def Repeated (s : Transfers) : TransactionInput → TransactionInput → Prop
  | .key _ _ keyImage, .key _ _ other =>
    keyImage = other ∧ ∃ t ∈ s.available, t.isFor keyImage = true
  | _, _ => False

structure Clear (s : Transfers) (inputs : List TransactionInput) : Prop where
  allowed : ∀ input ∈ inputs, ¬ Refused s input
  once : inputs.Pairwise fun x y => ¬ Repeated s x y

variable {s : Transfers} {input o : TransactionInput} {c c' : TransfersContainer}

theorem foreign_not_refused (h : Foreign s input) : ¬ Refused s input := by
  intro href
  cases input with
  | base _ => exact href
  | multisignature _ _ _ => exact href
  | key _ _ _ =>
    obtain ⟨hsp,hav,hunc⟩ := h
    rcases href with ⟨p,hp,hfor⟩ | ⟨-,t,ht,hfor⟩ | ⟨⟨t,ht,hfor⟩,-⟩
    · rw [hsp p hp] at hfor
      cases hfor
    · rw [hunc t ht] at hfor
      cases hfor
    · rw [hav t ht] at hfor
      cases hfor

theorem foreign_not_repeated (h : Foreign s input) : ¬ Repeated s input o := by
  intro hrpt
  cases input with
  | base _ => exact hrpt
  | multisignature _ _ _ => exact hrpt
  | key amt _ _ =>
    cases o with
    | base _ => exact hrpt
    | multisignature _ _ _ => exact hrpt
    | key _ _ _ =>
      obtain ⟨-,t,ht,hfor⟩ := hrpt
      rw [h.2.1 t ht] at hfor
      cases hfor

theorem chosen_not_refused (h : Chosen s cur input) (hlist : cur.list = s.available) :
    ¬ Refused s input := by
  intro href
  cases input with
  | base _ => exact href
  | multisignature _ _ _ => exact href
  | key _ _ _ =>
    obtain ⟨hsp,hlds⟩ := h
    obtain ⟨hfor,ham⟩ := Bool.and_eq_true_iff.mp hlds.holds
    have hitem : cur.item ∈ s.available := hlist ▸ cur.item_mem
    rcases href with ⟨p,hp,hs⟩ | ⟨hn,-⟩ | ⟨-,hn⟩
    · rw [hsp p hp] at hs
      cases hs
    · rw [hn cur.item hitem] at hfor
      cases hfor
    · exact hn cur.item hitem hfor (of_decide_eq_true ham)

theorem chosen_for {ki : KeyImage} (h : Chosen s cur input) (hfor : cur.item.isFor ki = true) :
    ∃ amt ois, input = .key amt ois ki := by
  have hd := of_decide_eq_true hfor
  cases input with
  | base _ => exact h.elim
  | multisignature _ _ _ =>
    rw [h.1] at hd
    cases hd
  | key amt ois _ =>
    rw [of_decide_eq_true (Bool.and_eq_true_iff.mp h.2.holds).1] at hd
    cases hd
    exact ⟨amt,ois,rfl⟩

def taken (g : Transfers) (cursor : Cursor Transfer) (p : SpentTransfer) : Transfers :=
  { g with available := cursor.erase, spent := copyToSpent g.spent p }

section Taken

variable {g : Transfers} {p : SpentTransfer} {ki : KeyImage}
  (hlist : cur.list = g.available) (hitem : p.output = cur.item)

theorem spent_taken : (∃ q ∈ (taken g cur p).spent, q.output.isFor ki = true) ↔
    p.output.isFor ki = true ∨ ∃ q ∈ g.spent, q.output.isFor ki = true := by
  constructor
  · rintro ⟨q,hq,hfor⟩
    rcases of_mem_copyToSpent hq with hq | rfl
    · exact .inr ⟨q,hq,hfor⟩
    · exact .inl hfor
  · rintro (hfor | ⟨q,hq,hfor⟩)
    · obtain ⟨q,hq,hd⟩ := copyToSpent_descriptor g.spent p
      exact ⟨q,hq,isFor_of_descriptor hd hfor⟩
    · exact ⟨q,mem_copyToSpent hq,hfor⟩

include hlist in
theorem available_taken {P : Transfer → Prop} (h : ¬ P cur.item) :
    (∃ t ∈ (taken g cur p).available, P t) ↔ ∃ t ∈ g.available, P t := by
  rw [← hlist]
  constructor
  · rintro ⟨t,ht,hP⟩
    exact ⟨t,cur.erase_subset ht,hP⟩
  · rintro ⟨t,ht,hP⟩
    rcases List.mem_cons.mp (cur.perm_list.mem_iff.mp ht) with rfl | ht
    · exact absurd hP h
    · exact ⟨t,ht,hP⟩

include hlist hitem

theorem refused_taken_of_other {amt : UInt64} {ois : List UInt32} (h : cur.item.isFor ki = false) :
    Refused (taken g cur p) (.key amt ois ki) ↔ Refused g (.key amt ois ki) := by
  have hsp : (∃ q ∈ (taken g cur p).spent, q.output.isFor ki = true) ↔
      ∃ q ∈ g.spent, q.output.isFor ki = true := by
    rw [spent_taken, hitem, h]
    simp
  have hh := available_taken (p := p) (P := fun t => t.isFor ki = true) hlist
    (by rw [h]; exact Bool.false_ne_true)
  have ham := available_taken (p := p) (P := fun t => t.isFor ki = true ∧ t.amount = amt) hlist
    (by rw [h]; exact fun hand => Bool.false_ne_true hand.1)
  have hn : (∀ t ∈ (taken g cur p).available, t.isFor ki = false) ↔
      ∀ t ∈ g.available, t.isFor ki = false := by
    simpa using not_congr hh
  have hw : (∀ t ∈ (taken g cur p).available, t.isFor ki = true →
      t.amount ≠ amt) ↔ ∀ t ∈ g.available, t.isFor ki = true → t.amount ≠ amt := by
    simpa using not_congr ham
  exact or_congr hsp (or_congr (and_congr hn Iff.rfl) (and_congr hh hw))

theorem refused_taken (hch : Chosen g cur input) (ot : TransactionInput) :
    Refused (taken g cur p) ot ↔ Refused g ot ∨ Repeated g input ot := by
  cases ot with
  | base _ => cases input <;> simp [Refused, Repeated]
  | multisignature _ _ _ => cases input <;> simp [Refused, Repeated]
  | key amt ois ki =>
    by_cases hfor : cur.item.isFor ki = true
    · have href : Refused (taken g cur p) (.key amt ois ki) :=
        Or.inl (spent_taken.mpr (.inl (hitem ▸ hfor)))
      refine iff_of_true href (.inr ?_)
      have hh : ∃ t ∈ g.available, t.isFor ki = true := ⟨cur.item,hlist ▸ cur.item_mem,hfor⟩
      obtain ⟨_,_,rfl⟩ := chosen_for hch hfor
      exact ⟨rfl,hh⟩
    · rw [refused_taken_of_other hlist hitem (Bool.eq_false_iff.mpr hfor)]
      refine (or_iff_left ?_).symm
      intro hrpt
      cases input with
      | base _ => exact hrpt
      | multisignature _ _ _ => exact hrpt
      | key _ _ _ =>
        obtain ⟨rfl,-⟩ := hrpt
        exact hfor (Bool.and_eq_true_iff.mp hch.2.holds).1

omit hitem in
theorem repeated_taken {third : TransactionInput} (hch : Chosen g cur input)
    (h : ¬ Repeated g input o) : Repeated (taken g cur p) o third ↔ Repeated g o third := by
  cases o with
  | base _ => exact Iff.rfl
  | multisignature _ _ _ => exact Iff.rfl
  | key _ _ ki =>
    cases third with
    | base _ => exact Iff.rfl
    | multisignature _ _ _ => exact Iff.rfl
    | key amt' ois' _ =>
      have hoth : cur.item.isFor ki ≠ true := by
        intro hfor
        obtain ⟨amt',ois',rfl⟩ := chosen_for hch hfor
        exact h ⟨rfl,cur.item,hlist ▸ cur.item_mem,hfor⟩
      exact and_congr_right fun _ => available_taken hlist hoth

theorem clear_taken (hch : Chosen g cur input) :
    Clear (taken g cur p) ins ↔ Clear g (input :: ins) := by
  have href := refused_taken hlist hitem hch
  constructor
  · rintro ⟨hal,ho⟩
    have hlat : ∀ o ∈ ins, ¬ Refused g o ∧ ¬ Repeated g input o := by
      intro o hoth
      exact not_or.mp (mt (href o).mpr (hal o hoth))
    constructor
    · exact List.forall_mem_cons.mpr ⟨chosen_not_refused hch hlist,fun o hoth => (hlat o hoth).1⟩
    · refine List.pairwise_cons.mpr ⟨fun o hoth => (hlat o hoth).2,?_⟩
      refine ho.imp_of_mem ?_
      intro x y hx _ hxy
      exact mt (repeated_taken hlist hch (hlat x hx).2).mpr hxy
  · rintro ⟨hal,ho⟩
    obtain ⟨-,hal⟩ := List.forall_mem_cons.mp hal
    obtain ⟨hfst,ho⟩ := List.pairwise_cons.mp ho
    constructor
    · intro o hoth
      exact mt (href o).mp (not_or.mpr ⟨hal o hoth,hfst o hoth⟩)
    · refine ho.imp_of_mem ?_
      intro x y hx _ hxy
      exact mt (repeated_taken hlist hch (hfst x hx)).mp hxy

end Taken

theorem clear_foreign (h : Foreign s input) : Clear s (input :: ins) ↔ Clear s ins := by
  constructor
  · rintro ⟨hal,ho⟩
    exact ⟨(List.forall_mem_cons.mp hal).2,(List.pairwise_cons.mp ho).2⟩
  · rintro ⟨hal,ho⟩
    exact ⟨List.forall_mem_cons.mpr ⟨foreign_not_refused h,hal⟩,
      List.pairwise_cons.mpr ⟨fun _ _ => foreign_not_repeated h,ho⟩⟩

theorem spending_clear {hash : Hash} (rest : List TransactionInput) {g g' : Transfers}
    {spent : Bool} (h : Spending blk hash i ins g spent g') :
    Clear g' rest ↔ Clear g (ins ++ rest) := by
  induction h with
  | done _ _ => exact Iff.rfl
  | foreign hfgn _ ih => exact ih.trans (clear_foreign hfgn).symm
  | spend hlist hch _ ih => exact ih.trans (clear_taken hlist rfl hch)

end Inputs

section Stops

variable {c c' : TransfersContainer} {e : Refusal}

theorem refused_contents {s : Transfers} {inp : TransactionInput} (h : Refused s inp) :
    Refused (contents s) inp := by
  cases inp with
  | base _ => exact h
  | multisignature _ _ _ => exact h
  | key _ _ _ =>
    rcases h with ⟨p,hp,hfor⟩ | ⟨hn,t,ht,hfor⟩ | ⟨⟨t,ht,hfor⟩,hn⟩
    · exact .inl ⟨spentCore p,List.mem_map_of_mem hp,hfor⟩
    · exact .inr (.inl ⟨List.forall_mem_map.mpr hn,core t,List.mem_map_of_mem ht,hfor⟩)
    · exact .inr (.inr ⟨⟨core t,List.mem_map_of_mem ht,hfor⟩,List.forall_mem_map.mpr hn⟩)

theorem addTransactionOutputs_stops (h : addTransactionOutputs blk tx transfers c = .error e c') :
    ∃ pre t after, transfers = pre ++ t :: after ∧
      ¬ OutputFits (receive blk tx pre c.toTransfers) blk t ∧
      c' = { c with toTransfers := receive blk tx pre c.toTransfers } := by
  induction transfers generalizing c with
  | nil => cases h
  | cons t transfers ih =>
    rw [addTransactionOutputs] at h
    by_cases hf : OutputFits c.toTransfers blk t
    · rw [bind_of_ok (addTransactionOutput_ok hf)] at h
      rcases bind_error.mp h with hr | ⟨added,d,-,hp⟩
      · obtain ⟨pre,u,after,rfl,hnot,hl⟩ := ih hr
        exact ⟨t :: pre,u,after,rfl,hnot,hl⟩
      · cases hp
    · obtain ⟨_,he⟩ := addTransactionOutput_error tx hf
      rw [bind_of_error he] at h
      cases h
      exact ⟨[],t,transfers,rfl,hf,rfl⟩

theorem addTransactionInputs_stops (h : addTransactionInputs blk tx i ins c = .error e c') :
    ∃ pre inp after spent s, ins = pre ++ inp :: after ∧ c' = { c with toTransfers := s } ∧
      Spending blk tx.transactionHash i pre (contents c.toTransfers) spent (contents s) ∧
      Refused (contents s) inp ∧
      (spent = false → Refused c.toTransfers inp ∧ ∀ y ∈ pre, Foreign c.toTransfers y) := by
  induction ins generalizing i c with
  | nil => cases h
  | cons inp ins ih =>
    rw [addTransactionInputs] at h
    rcases addTransactionInput_cases blk tx i inp c with
      ⟨href,e',he⟩ | ⟨hfgn,he⟩ | ⟨cur,hlist,hch,he⟩
    · rw [bind_of_error he] at h
      cases h
      exact ⟨[],inp,ins,false,_,rfl,rfl,.done i _,refused_contents href,
        fun _ => ⟨href,fun _ hy => (List.not_mem_nil hy).elim⟩⟩
    · rw [bind_of_ok he] at h
      rcases bind_error.mp h with hr | ⟨os,d,-,hp⟩
      · obtain ⟨pre,x,after,spent,s,rfl,hl,hspg,href,hn⟩ := ih hr
        refine ⟨inp :: pre,x,after,spent,s,rfl,hl, .foreign (foreign_contents hfgn) hspg,href,?_⟩
        intro hsp
        obtain ⟨hst,hbef⟩ := hn hsp
        exact ⟨hst,List.forall_mem_cons.mpr ⟨hfgn,hbef⟩⟩
      · cases hp
    · rw [bind_of_ok he] at h
      rcases bind_error.mp h with hr | ⟨os,d,-,hp⟩
      · obtain ⟨pre,x,after,spent,s,rfl,hl,hspg,href,-⟩ := ih hr
        refine ⟨inp :: pre,x,after,true,s,rfl,hl,?_,href,nofun⟩
        rw [spend_contents] at hspg
        apply Spending.spend _ (chosen_contents hch) hspg
        rw [Cursor.map_list, hlist]
        rfl
      · cases hp

theorem addTransactionInputs_clear (bl : TransactionBlockInfo) (tx : TransactionReader) (i : ℕ)
    (ins : List TransactionInput) (c : TransfersContainer) :
    (∃ added c', addTransactionInputs bl tx i ins c = .ok added c') ↔
      Clear (contents c.toTransfers) ins := by
  constructor
  · rintro ⟨added,c',hrun⟩
    obtain ⟨s,-,hspg⟩ := addTransactionInputs_ok hrun
    have hclr := (spending_clear [] hspg).mp ⟨by simp,by simp⟩
    rwa [List.append_nil] at hclr
  · intro hclr
    cases hrun : addTransactionInputs bl tx i ins c with
    | ok added c' => exact ⟨added,c',rfl⟩
    | error _ _ =>
      obtain ⟨_,x,_,_,s,hins,-,hspg,href,-⟩ := addTransactionInputs_stops hrun
      rw [hins] at hclr
      have hr := (spending_clear _ hspg).mpr hclr
      exact absurd href (hr.allowed x (List.mem_cons_self ..))

theorem addTransactionInputs_stopped (bl : TransactionBlockInfo) (tx : TransactionReader) (i : ℕ)
    {pre : List TransactionInput} (after : List TransactionInput) {inp : TransactionInput}
    (hbef : ∀ y ∈ pre, Foreign c.toTransfers y) (href : Refused c.toTransfers inp) :
    ∃ e, addTransactionInputs bl tx i (pre ++ inp :: after) c = .error e c := by
  induction pre generalizing i with
  | nil =>
    rcases addTransactionInput_cases bl tx i inp c with
      ⟨-,e,he⟩ | ⟨hfgn,-⟩ | ⟨cur,hlist,hch,-⟩
    · exact ⟨e,bind_of_error he⟩
    · exact absurd href (foreign_not_refused hfgn)
    · exact absurd href (chosen_not_refused hch hlist)
  | cons y _ ih =>
    obtain ⟨hfst,hlat⟩ := List.forall_mem_cons.mp hbef
    rcases addTransactionInput_cases bl tx i y c with
      ⟨hy,-⟩ | ⟨-,he⟩ | ⟨cur,hlist,hch,-⟩
    · exact absurd hy (foreign_not_refused hfst)
    · obtain ⟨e,hr⟩ := ih (i + 1) hlat
      refine ⟨e,?_⟩
      rw [List.cons_append, addTransactionInputs, bind_of_ok he]
      exact bind_of_error hr
    · exact absurd hfst (chosen_not_foreign hch hlist)

end Stops

section Traces

def doubled (spent : List SpentTransfer) (t : Transfer) : Bool :=
  match t.kind with
  | .key _ _ => false
  | .multisignature _ => spent.any fun p => decide (p.output.descriptor = t.descriptor)

variable {input : TransactionInput} {g g' : Transfers} {spent : Bool}

theorem doubled_of_known (hch : Chosen g cur input) {q : SpentTransfer} (hq : q ∈ g.spent)
    (h : q.output.descriptor = cur.item.descriptor) : doubled g.spent cur.item = true := by
  unfold doubled
  cases hk : cur.item.kind with
  | multisignature _ => exact List.any_eq_true.mpr ⟨q,hq,decide_eq_true h⟩
  | key _ ki =>
    have hfor := key_isFor hk
    obtain ⟨_,_,rfl⟩ := chosen_for hch hfor
    have hs : q.output.isFor ki = true := by
      rw [Transfer.isFor, h]
      exact hfor
    rw [hch.1 q hq] at hs
    cases hs

theorem spending_available (h : Spending blk hash i ins g spent g') :
    g'.available.length ≤ g.available.length ∧
      (spent = true → g'.available.length < g.available.length) := by
  induction h with
  | done _ _ => exact ⟨le_rfl,nofun⟩
  | foreign _ _ ih => exact ih
  | @spend _ _ _ g g' _ cur hlist _ _ ih =>
    have hlen := cur.erase_length
    rw [hlist] at hlen
    have hl : g'.available.length < g.available.length := by
      have hlat : g'.available.length ≤ cur.erase.length := ih.1
      omega
    exact ⟨hl.le,fun _ => hl⟩

theorem spending_spent (h : Spending blk hash i ins g spent g') :
    g.spent.length < g'.spent.length ∨ g'.spent.length = g.spent.length ∧
      (g'.available.countP fun t => !doubled g.spent t) =
        g.available.countP fun t => !doubled g.spent t := by
  induction h with
  | done _ _ => exact .inr ⟨rfl,rfl⟩
  | foreign _ _ ih => exact ih
  | @spend i _ _ g _ _ cur hlist hch _ ih =>
    by_cases hknown : ∃ q ∈ g.spent, q.output.descriptor = cur.item.descriptor
    · obtain ⟨q,hq,hd⟩ := hknown
      have hc : copyToSpent g.spent ⟨cur.item, blk, hash, i⟩ = g.spent :=
        if_pos (List.any_eq_true.mpr ⟨q,hq,decide_eq_true hd⟩)
      dsimp only at ih
      rw [hc] at ih
      have hcnt : (g.available.countP fun t => !doubled g.spent t) =
          cur.erase.countP fun t => !doubled g.spent t := by
        rw [← hlist, cur.perm_list.countP_eq, List.countP_cons_of_neg]
        rw [doubled_of_known hch hq hd]
        exact Bool.false_ne_true
      rw [hcnt]
      exact ih
    · left
      dsimp only at ih
      rw [copyToSpent_append fun q hq heq => hknown ⟨q,hq,heq⟩, List.length_append,
        List.length_singleton] at ih
      omega

theorem stored_not_doubled {s : Transfers} {t : TransactionOutputInformationIn}
    (h : s.exists t = false) : doubled s.spent (core (stored blk tx t)) = false := by
  apply Bool.eq_false_iff.mpr
  intro hd
  apply Bool.eq_false_iff.mp h
  unfold doubled at hd
  have hk : (core (stored blk tx t)).kind = t.kind := rfl
  cases hm : t.kind with
  | key _ _ =>
    rw [hk, hm] at hd
    cases hd
  | multisignature m =>
    rw [hk, hm] at hd
    obtain ⟨p,hp,heq⟩ := List.any_eq_true.mp hd
    exact exists_iff.mpr ⟨⟨m,hm⟩,.inr ⟨p,hp,of_decide_eq_true heq⟩⟩

theorem alike_nothing (hfit : AllFit g blk transfers)
    (h : Spending blk hash i ins (received blk tx transfers g) spent g')
    (halk : Alike g g') : transfers = [] ∧ spent = false := by
  have hnil : transfers = [] := by
    have hsp := spending_spent h
    have hunc := spending_unconfirmed h
    unfold received at hsp hunc
    by_cases hblk : blk.height = unconfirmedHeight
    · rw [if_pos hblk] at hunc
      have hlen := halk.unconfirmed.length_eq
      rw [hunc, List.length_append, List.length_map] at hlen
      exact List.length_eq_zero_iff.mp (by omega)
    · rw [if_neg hblk] at hsp
      dsimp only at hsp
      rcases hsp with hl | ⟨-,hcnt⟩
      · exact absurd halk.spent.length_eq hl.ne
      · have hall : ((transfers.map fun t => core (stored blk tx t)).countP
            fun t => !doubled g.spent t) = transfers.length := by
          rw [List.countP_eq_length.mpr, List.length_map]
          refine List.forall_mem_map.mpr ?_
          intro t ht
          rw [stored_not_doubled ((hfit.fresh hblk).unknown t ht)]
          rfl
        rw [List.countP_append, hall, ← halk.available.countP_eq] at hcnt
        exact List.length_eq_zero_iff.mp (by omega)
  refine ⟨hnil,?_⟩
  rw [hnil, received_nil] at h
  apply Bool.eq_false_iff.mpr
  intro hsp
  exact absurd halk.available.length_eq ((spending_available h).2 hsp).ne'

theorem received_alike (h : Alike g (received blk tx transfers g)) : transfers = [] := by
  have hunc := h.unconfirmed.length_eq
  have hav := h.available.length_eq
  unfold received at hunc hav
  apply List.length_eq_zero_iff.mp
  by_cases hblk : blk.height = unconfirmedHeight
  · rw [if_pos hblk, List.length_append, List.length_map] at hunc
    omega
  · rw [if_neg hblk, List.length_append, List.length_map] at hav
    omega

end Traces

section Calls

structure Same (c c' : TransfersContainer) : Prop where
  transactions : c.transactions.Perm c'.transactions
  transfers : Alike c.toTransfers c'.toTransfers

inductive AddsWhole (block : TransactionBlockInfo) (tx : TransactionReader)
    (transfers : List TransactionOutputInformationIn) (c : TransfersContainer) : Prop
  | old (h : block.height < c.currentHeight)
  | known (h : (c.transaction tx.transactionHash).isSome = true)
  | output {t : TransactionOutputInformationIn} {others : List TransactionOutputInformationIn}
      (h : transfers = t :: others) (unfit : ¬ OutputFits c.toTransfers block t)
  | input {before after : List TransactionInput} {x : TransactionInput} (h : transfers = [])
      (inputs : tx.inputs = before ++ x :: after)
      (foreign : ∀ y ∈ before, Foreign c.toTransfers y) (refused : Refused c.toTransfers x)
  | clear (fit : AllFit c.toTransfers block transfers)
      (clear : Clear (received block tx transfers (contents c.toTransfers)) tx.inputs)

inductive ConfirmsWhole (block : TransactionBlockInfo) (hash : Hash) (globalIndices : List ℕ)
    (c : TransfersContainer) : Prop
  | unconfirmed (h : block.height = unconfirmedHeight)
  | unknown (h : ∀ info, c.transaction hash = some info → info.blockHeight ≠ unconfirmedHeight)
  | confirms (h : AllConfirm block hash globalIndices (contents c.toTransfers))

variable {gi : List ℕ} {c c' : TransfersContainer} {e : Refusal}

theorem Same.refl (c : TransfersContainer) : Same c c := ⟨.refl _,.refl _,.refl _,.refl _⟩

theorem alike_contents {s s' : Transfers} (h : Alike s s') : Alike (contents s) (contents s') :=
  ⟨h.unconfirmed.map _,h.available.map _,h.spent.map _⟩

section Begun

variable (hheight : ¬ blk.height < c.currentHeight)
  (hknown : ¬ (c.transaction tx.transactionHash).isSome = true)

include hheight hknown

theorem addTransaction_loops : addTransaction blk tx transfers c = .error e c' ↔
      addTransactionOutputs blk tx transfers c = .error e c' ∨
      AllFit c.toTransfers blk transfers ∧ addTransactionInputs blk tx 0 tx.inputs
        { c with toTransfers := receive blk tx transfers c.toTransfers } = .error e c' := by
  unfold addTransaction
  rw [get_bind, if_neg hheight, get_bind, if_neg hknown]
  by_cases hfit : AllFit c.toTransfers blk transfers
  · rw [bind_of_ok (addTransactionOutputs_ok hfit), addTransactionOutputs_ok hfit, bind_error]
    constructor
    · rintro (h | ⟨added,d,-,h⟩)
      · exact .inr ⟨hfit,h⟩
      · cases h
    · rintro (h | ⟨-,h⟩)
      · cases h
      · exact .inl h
  · obtain ⟨_,d,he⟩ := addTransactionOutputs_error tx hfit
    rw [bind_of_error he, he]
    constructor
    · intro h
      cases h
      exact .inl rfl
    · rintro (h | ⟨ha,-⟩)
      · cases h
        rfl
      · exact absurd ha hfit

theorem adds_whole_of_same
    (h : ∀ e c', addTransaction blk tx transfers c = .error e c' → Same c c') :
    AddsWhole blk tx transfers c := by
  by_cases hfit : AllFit c.toTransfers blk transfers
  · cases hrun : addTransactionInputs blk tx 0 tx.inputs
        { c with toTransfers := receive blk tx transfers c.toTransfers } with
    | ok added d =>
      have hclr := (addTransactionInputs_clear _ _ _ _ _).mp ⟨added,d,hrun⟩
      rw [receive_contents] at hclr
      exact .clear hfit hclr
    | error e d =>
      have hs := h e d ((addTransaction_loops hheight hknown).mpr (.inr ⟨hfit,hrun⟩))
      obtain ⟨pre,_,after,_,_,hins,rfl,hspg,-,hn⟩ := addTransactionInputs_stops hrun
      rw [receive_contents] at hspg
      obtain ⟨rfl,rfl⟩ := alike_nothing (allFit_contents hfit) hspg (alike_contents hs.transfers)
      obtain ⟨href,hfgn⟩ := hn rfl
      exact .input rfl hins hfgn href
  · obtain ⟨e,d,hrun⟩ := addTransactionOutputs_error tx hfit
    have hs := h e d ((addTransaction_loops hheight hknown).mpr (.inl hrun))
    obtain ⟨pre,_,after,htfs,hnot,rfl⟩ := addTransactionOutputs_stops hrun
    have halk := alike_contents hs.transfers
    dsimp only at halk
    rw [receive_contents] at halk
    obtain rfl := received_alike halk
    exact .output htfs hnot

end Begun

theorem same_of_adds_whole (h : AddsWhole blk tx transfers c)
    (hrun : addTransaction blk tx transfers c = .error e c') : c' = c := by
  by_cases hheight : blk.height < c.currentHeight
  · unfold addTransaction at hrun
    rw [get_bind, if_pos hheight] at hrun
    cases hrun
    rfl
  by_cases hknown : (c.transaction tx.transactionHash).isSome = true
  · unfold addTransaction at hrun
    rw [get_bind, if_neg hheight, get_bind, if_pos hknown] at hrun
    cases hrun
    rfl
  have hlo := (addTransaction_loops hheight hknown).mp hrun
  cases h with
  | old h => exact absurd h hheight
  | known h => exact absurd h hknown
  | @output _ _ htfs hu =>
    obtain ⟨e',he⟩ := addTransactionOutput_error tx hu
    have ho : addTransactionOutputs blk tx transfers c = .error e' c := by
      rw [htfs, addTransactionOutputs]
      exact bind_of_error he
    rcases hlo with hl | ⟨hfit,-⟩
    · rw [ho] at hl
      cases hl
      rfl
    · rw [addTransactionOutputs_ok hfit] at ho
      cases ho
  | @input _ after _ htfs hins hfgn href =>
    subst htfs
    obtain ⟨e',he⟩ := addTransactionInputs_stopped blk tx 0 after hfgn href
    rcases hlo with hl | ⟨-,hl⟩
    · cases hl
    · rw [← hins] at he
      rw [show { c with toTransfers := receive blk tx [] c.toTransfers } = c from rfl, he] at hl
      cases hl
      rfl
  | clear hfit hclr =>
    rcases hlo with hl | ⟨-,hl⟩
    · rw [addTransactionOutputs_ok hfit] at hl
      cases hl
    · rw [← receive_contents] at hclr
      obtain ⟨_,_,hok⟩ := (addTransactionInputs_clear blk tx 0 tx.inputs
        { c with toTransfers := receive blk tx transfers c.toTransfers }).mpr hclr
      rw [hok] at hl
      cases hl

theorem replaced_not_perm {T : List TransactionInformation} {info : TransactionInformation}
    (hblk : blk.height ≠ unconfirmedHeight)
    (hi : T.find? (fun info => decide (info.transactionHash = hash)) = some info)
    (hheight : info.blockHeight = unconfirmedHeight) :
    ¬ T.Perm (replaceTransaction (info.confirmed blk) T) := by
  obtain ⟨hh,pre,after,rfl,hbef⟩ := List.find?_eq_some_iff_append.mp hi
  have ho : ∀ o ∈ pre, ¬ decide (o.transactionHash =
      (info.confirmed blk).transactionHash) = true := by
    intro o hoth
    rw [show (info.confirmed blk).transactionHash = hash from of_decide_eq_true hh]
    exact Bool.eq_false_iff.mp (Bool.not_eq_true' _ |>.mp (hbef o hoth))
  have hera : (info :: after).eraseP (fun o => decide (o.transactionHash =
      (info.confirmed blk).transactionHash)) = after := by
    apply List.eraseP_cons_of_pos
    exact decide_eq_true rfl
  intro hp
  have hcnt := hp.countP_eq fun o => decide (o.blockHeight = unconfirmedHeight)
  rw [replaceTransaction, insertByHeight, (List.perm_orderedInsert _ _ _).countP_eq,
    List.eraseP_append_right _ ho, hera, List.countP_cons, List.countP_append,
    List.countP_append, List.countP_cons, if_pos (decide_eq_true hheight)] at hcnt
  have hm : ¬ decide ((info.confirmed blk).blockHeight = unconfirmedHeight) = true :=
    fun h => hblk (of_decide_eq_true h)
  rw [if_neg hm] at hcnt
  omega

theorem mark_same_iff : (∀ e c', markTransactionConfirmed blk hash gi c = .error e c' → Same c c') ↔
      ConfirmsWhole blk hash gi c := by
  constructor
  · intro h
    by_cases hblk : blk.height = unconfirmedHeight
    · exact .unconfirmed hblk
    by_cases hknown : ∃ info, c.transaction hash = some info ∧ info.blockHeight = unconfirmedHeight
    · obtain ⟨info,hi,hheight⟩ := hknown
      apply ConfirmsWhole.confirms
      by_contra hcf
      obtain ⟨e,s,hrun⟩ := mark_error hblk hi hheight hcf
      exact replaced_not_perm hblk hi hheight (h _ _ hrun).transactions
    · exact .unknown fun info hi hheight => hknown ⟨info,hi,hheight⟩
  · intro h e c' hrun
    by_cases hblk : blk.height = unconfirmedHeight
    · rw [markTransactionConfirmed, if_pos hblk] at hrun
      cases hrun
      exact .refl c
    by_cases hknown : ∃ info, c.transaction hash = some info ∧ info.blockHeight = unconfirmedHeight
    · obtain ⟨info,hi,hheight⟩ := hknown
      have hcf : AllConfirm blk hash gi (contents c.toTransfers) := by
        cases h with
        | unconfirmed h => exact absurd h hblk
        | unknown h => exact absurd hheight (h info hi)
        | confirms h => exact h
      obtain ⟨s,hok,-⟩ := mark_ok hblk hi hheight hcf
      rw [hok] at hrun
      cases hrun
    · rw [mark_unknown hblk fun info hi hheight => hknown ⟨info,hi,hheight⟩] at hrun
      cases hrun

theorem add_same_iff : (∀ e c', addTransaction blk tx transfers c = .error e c' → Same c c') ↔
      AddsWhole blk tx transfers c := by
  constructor
  · intro h
    by_cases hheight : blk.height < c.currentHeight
    · exact .old hheight
    by_cases hknown : (c.transaction tx.transactionHash).isSome = true
    · exact .known hknown
    · exact adds_whole_of_same hheight hknown h
  · intro h e c' hrun
    rw [same_of_adds_whole h hrun]
    exact .refl c

/-- The two calls that throw leave the containers as they were exactly where
the call is refused before anything is taken, or is not refused. -/
theorem throws_unchanged_iff (block : TransactionBlockInfo) (tx : TransactionReader) (hash : Hash)
    (transfers : List TransactionOutputInformationIn) (globalIndices : List ℕ)
    (c : TransfersContainer) :
    ((∀ e c', addTransaction block tx transfers c = .error e c' → Same c c') ↔
      AddsWhole block tx transfers c) ∧
    ((∀ e c', markTransactionConfirmed block hash globalIndices c = .error e c' → Same c c') ↔
      ConfirmsWhole block hash globalIndices c) :=
  ⟨add_same_iff,mark_same_iff⟩

end Calls

/-- An addition in block 1 of two outputs, the second without a global index. -/
theorem first_output_kept : ∃ e c', addTransaction ⟨1, 0, 0⟩ (sampleReader 1 [])
        [sampleTransfer 50 7 0 3, sampleTransfer 60 unconfirmedIndex 1 4] .empty = .error e c' ∧
      ¬ Same .empty c' := by
  refine ⟨.badGlobalIndex,_,rfl,?_⟩
  intro hs
  exact absurd hs.transfers.available.length_eq (by decide)

end Orbis.WalletFaults
