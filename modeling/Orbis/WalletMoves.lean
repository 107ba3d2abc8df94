import Orbis.WalletTransfers

/-!
# What the calls on the transfers do

A call on the container is a sequence of moves of single outputs. For an
output and for an input it is said when the call refuses it, with the state
left as it is, and which move it makes otherwise. A loop over outputs, inputs
or transfers repeats this, so what the moves keep is kept by every call, also
by one that throws after some of them.
-/

set_option autoImplicit false

namespace Orbis.WalletMoves

open Relation FaultState ListCursor ChainTypes WalletTransfers

section Outputs

variable (s : Transfers) (block : TransactionBlockInfo) (tx : TransactionReader)

def OutputFits (transfer : TransactionOutputInformationIn) : Prop :=
  (block.height = unconfirmedHeight ↔ transfer.globalOutputIndex = unconfirmedIndex) ∧
    (block.height ≠ unconfirmedHeight → s.exists transfer = false)

def addOutput (transfer : TransactionOutputInformationIn) : Transfers :=
  if block.height = unconfirmedHeight then s.addUnconfirmed (stored block tx transfer)
  else s.addAvailable (stored block tx transfer)

variable {s block tx} {transfer : TransactionOutputInformationIn} {c : TransfersContainer}

theorem addTransactionOutput_ok (h : OutputFits c.toTransfers block transfer) :
    addTransactionOutput block tx transfer c =
      .ok () { c with toTransfers := addOutput c.toTransfers block tx transfer } := by
  unfold addTransactionOutput addOutput
  by_cases hblk : block.height = unconfirmedHeight
  · have hix := h.1.mp hblk
    simp only [hblk, hix, decide_true, ne_eq, not_true, if_false, if_true]
    rfl
  · have hix := mt h.1.mpr hblk
    have hnew := h.2 hblk
    simp only [hblk, hix, decide_false, ne_eq, not_true, Bool.false_eq_true, if_false]
    rw [get_bind]
    simp only [hnew]
    rfl

theorem addTransactionOutput_error (tx : TransactionReader)
    (h : ¬ OutputFits c.toTransfers block transfer) :
    ∃ e, addTransactionOutput block tx transfer c = .error e c := by
  unfold addTransactionOutput
  by_cases hk : block.height = unconfirmedHeight ↔ transfer.globalOutputIndex = unconfirmedIndex
  · have hblk : block.height ≠ unconfirmedHeight := by
      intro hblk
      exact h ⟨hk,fun hne => absurd hblk hne⟩
    have hix := mt hk.mpr hblk
    have hex : c.exists transfer = true := by
      by_contra hnot
      exact h ⟨hk,fun _ => Bool.eq_false_iff.mpr hnot⟩
    simp only [hblk, hix, decide_false, ne_eq, not_true, Bool.false_eq_true, if_false]
    rw [get_bind]
    simp only [hex, if_true]
    exact ⟨.alreadyExists,rfl⟩
  · have hne : decide (block.height = unconfirmedHeight) ≠
        decide (transfer.globalOutputIndex = unconfirmedIndex) :=
      fun heq => hk (decide_eq_decide.mp heq)
    rw [if_pos hne]
    exact ⟨.badGlobalIndex,rfl⟩

end Outputs

section Inputs

variable (s : Transfers)

def Refused : TransactionInput → Prop
  | .key amount _ keyImage =>
    (∃ p ∈ s.spent, p.output.isFor keyImage = true) ∨
    ((∀ t ∈ s.available, t.isFor keyImage = false) ∧
      ∃ t ∈ s.unconfirmed, t.isFor keyImage = true) ∨
    ((∃ t ∈ s.available, t.isFor keyImage = true) ∧
      ∀ t ∈ s.available, t.isFor keyImage = true → t.amount ≠ amount)
  | _ => False

def Foreign : TransactionInput → Prop
  | .key _ _ keyImage =>
    (∀ p ∈ s.spent, p.output.isFor keyImage = false) ∧
    (∀ t ∈ s.available, t.isFor keyImage = false) ∧
    ∀ t ∈ s.unconfirmed, t.isFor keyImage = false
  | .multisignature amount _ outputIndex =>
    ∀ t ∈ s.available, t.descriptor ≠ .multisignature amount outputIndex.toNat
  | .base _ => True

def Chosen (cursor : Cursor Transfer) : TransactionInput → Prop
  | .key amount _ keyImage =>
    (∀ p ∈ s.spent, p.output.isFor keyImage = false) ∧
    Leads Transfer.place (fun t => t.isFor keyImage && decide (t.amount = amount)) cursor
  | .multisignature amount _ outputIndex =>
    cursor.item.descriptor = .multisignature amount outputIndex.toNat ∧
    ∀ t ∈ cursor.before, t.descriptor ≠ .multisignature amount outputIndex.toNat
  | .base _ => False

def inputDescriptor : TransactionInput → Option SpentOutputDescriptor
  | .base _ => none
  | .key _ _ keyImage => some (.key keyImage)
  | .multisignature amount _ outputIndex => some (.multisignature amount outputIndex.toNat)

theorem chosen_descriptor {s : Transfers} {inp : TransactionInput} {cur : Cursor Transfer}
    (h : Chosen s cur inp) : inputDescriptor inp = some cur.item.descriptor := by
  cases inp with
  | base _ => exact h.elim
  | key _ _ _ =>
    rw [inputDescriptor, of_decide_eq_true (Bool.and_eq_true_iff.mp h.2.holds).1]
  | multisignature _ _ _ => rw [inputDescriptor, h.1]

variable (block : TransactionBlockInfo) (tx : TransactionReader) (i : ℕ)
  (inp : TransactionInput) (c : TransfersContainer)

theorem addTransactionInput_cases :
    (Refused c.toTransfers inp ∧ ∃ e, addTransactionInput block tx i inp c = .error e c) ∨
    (Foreign c.toTransfers inp ∧ addTransactionInput block tx i inp c = .ok false c) ∨
    ∃ cur : Cursor Transfer, cur.list = c.available ∧ Chosen c.toTransfers cur inp ∧
      addTransactionInput block tx i inp c =
        .ok true { c with toTransfers := c.spend cur block tx.transactionHash i } := by
  cases inp with
  | base _ => exact .inr (.inl ⟨trivial,rfl⟩)
  | multisignature amt _ oi =>
    right
    rw [addTransactionInput, get_bind]
    cases hf : find (fun t => decide (t.descriptor = .multisignature amt oi.toNat)) c.available with
    | none =>
      left
      refine ⟨?_,rfl⟩
      intro t ht
      exact of_decide_eq_false (find_none.mp hf t ht)
    | some cur =>
      right
      obtain ⟨hl,hi,hbef⟩ := find_some hf
      exact ⟨cur,hl,⟨of_decide_eq_true hi, fun t ht => of_decide_eq_false (hbef t ht)⟩,rfl⟩
  | key amt _ ki =>
    rw [addTransactionInput, get_bind]
    by_cases hsp : ∃ p ∈ c.spent, p.output.isFor ki = true
    · left
      refine ⟨.inl hsp,.alreadySpent,?_⟩
      rw [if_pos (List.any_eq_true.mpr hsp)]
      rfl
    have hu : ∀ p ∈ c.spent, p.output.isFor ki = false := by
      intro p hp
      exact Bool.eq_false_iff.mpr fun h => hsp ⟨p,hp,h⟩
    rw [if_neg (fun h => hsp (List.any_eq_true.mp h))]
    by_cases hav : ∃ t ∈ c.available, t.isFor ki = true
    · rw [List.any_eq_true.mpr hav, Bool.not_true, if_neg Bool.false_ne_true]
      cases hlst : least Transfer.place
          (fun t => t.isFor ki && decide (t.amount = amt)) c.available with
      | none =>
        left
        refine ⟨.inr (.inr ⟨hav,?_⟩),.badAmount,rfl⟩
        intro t ht hfor ham
        have hnot := least_none.mp hlst t ht
        rw [hfor, Bool.true_and, decide_eq_true ham] at hnot
        cases hnot
      | some cur =>
        obtain ⟨hl,hlds⟩ := least_some hlst
        exact .inr (.inr ⟨cur,hl,⟨hu,hlds⟩,rfl⟩)
    · have hn : ∀ t ∈ c.available, t.isFor ki = false := by
        intro t ht
        exact Bool.eq_false_iff.mpr fun h => hav ⟨t,ht,h⟩
      have hany : (c.available.any fun t => t.isFor ki) = false := by
        apply Bool.eq_false_iff.mpr
        exact fun h => hav (List.any_eq_true.mp h)
      rw [hany, Bool.not_false, if_pos rfl]
      by_cases hunc : ∃ t ∈ c.unconfirmed, t.isFor ki = true
      · left
        refine ⟨.inr (.inl ⟨hn,hunc⟩),.spendingUnconfirmed,?_⟩
        rw [if_pos (List.any_eq_true.mpr hunc)]
        rfl
      · right
        left
        refine ⟨⟨hu,hn,?_⟩,?_⟩
        · intro t ht
          exact Bool.eq_false_iff.mpr fun h => hunc ⟨t,ht,h⟩
        · rw [if_neg (fun h => hunc (List.any_eq_true.mp h))]
          rfl

end Inputs

section Steps

inductive Move (s : Transfers) : Transfers → Prop
  | output {block : TransactionBlockInfo} {tx : TransactionReader}
      {transfer : TransactionOutputInformationIn} (fits : OutputFits s block transfer) :
      Move s (addOutput s block tx transfer)
  | spend {cursor : Cursor Transfer} {block : TransactionBlockInfo} {hash : Hash} {i : ℕ}
      {input : TransactionInput} (within : cursor.list = s.available)
      (chosen : Chosen s cursor input) : Move s (s.spend cursor block hash i)
  | confirm {cursor : Cursor Transfer} {block : TransactionBlockInfo} {index : ℕ}
      (within : cursor.list = s.unconfirmed)
      (fresh :
        s.exists (confirmed block index cursor.item).toTransactionOutputInformationIn = false) :
      Move s (s.confirm cursor (confirmed block index cursor.item))
  | respend {block : TransactionBlockInfo} {hash : Hash} :
      Move s { s with spent := s.spent.map (SpentTransfer.respend block hash) }
  | release {cursor : Cursor SpentTransfer} (within : cursor.list = s.spent) :
      Move s (s.release cursor)
  | dropUnconfirmed {cursor : Cursor Transfer} (within : cursor.list = s.unconfirmed) :
      Move s (s.dropUnconfirmed cursor)
  | dropAvailable {cursor : Cursor Transfer} (within : cursor.list = s.available) :
      Move s (s.dropAvailable cursor)

def Reaches : Transfers → Transfers → Prop := ReflTransGen Move

def Moves {α : Type} (x : Run α) : Prop := ∀ c, Reaches c.toTransfers (left (x c)).toTransfers

variable {α β : Type} {block : TransactionBlockInfo} {tx : TransactionReader}

theorem moves_pure (a : α) : Moves (pure a : Run α) := fun _ => .refl

theorem moves_throw (e : Refusal) : Moves (throw e : Run α) := fun _ => .refl

theorem moves_bind {x : Run α} {f : α → Run β} (hx : Moves x) (hf : ∀ a, Moves (f a)) :
    Moves (x >>= f) := by
  intro c
  have hfst := hx c
  rw [bind_run]
  cases h : x c with
  | ok a d =>
    rw [h] at hfst
    exact hfst.trans (hf a d)
  | error _ _ =>
    rw [h] at hfst
    exact hfst

theorem moves_get : Moves (get : Run TransfersContainer) := fun _ => .refl

theorem moves_modify {f : TransfersContainer → TransfersContainer}
    (hf : ∀ c, (f c).toTransfers = c.toTransfers) : Moves (modify f : Run PUnit) := by
  intro c
  show Reaches c.toTransfers (f c).toTransfers
  rw [hf c]
  exact .refl

theorem addTransactionOutput_moves (transfer : TransactionOutputInformationIn) :
    Moves (addTransactionOutput block tx transfer) := by
  intro c
  by_cases h : OutputFits c.toTransfers block transfer
  · rw [addTransactionOutput_ok h]
    exact .single (.output h)
  · obtain ⟨_,he⟩ := addTransactionOutput_error tx h
    rw [he]
    exact .refl

theorem addTransactionOutputs_moves (transfers : List TransactionOutputInformationIn) :
    Moves (addTransactionOutputs block tx transfers) := by
  induction transfers with
  | nil => exact moves_pure false
  | cons transfer _ ih =>
    exact moves_bind (addTransactionOutput_moves transfer)
      fun _ => moves_bind ih fun _ => moves_pure true

theorem addTransactionInput_moves (i : ℕ) (inp : TransactionInput) :
    Moves (addTransactionInput block tx i inp) := by
  intro c
  rcases addTransactionInput_cases block tx i inp c with
    ⟨-,e,he⟩ | ⟨-,he⟩ | ⟨cur,hl,hch,he⟩
  · rw [he]
    exact .refl
  · rw [he]
    exact .refl
  · rw [he]
    exact .single (.spend hl hch)

theorem addTransactionInputs_moves (i : ℕ) (ins : List TransactionInput) :
    Moves (addTransactionInputs block tx i ins) := by
  induction ins generalizing i with
  | nil => exact moves_pure false
  | cons inp _ ih =>
    exact moves_bind (addTransactionInput_moves i inp)
      fun added => moves_bind (ih (i + 1)) fun os => moves_pure (added || os)

theorem addTransaction_moves (transfers : List TransactionOutputInformationIn) :
    Moves (addTransaction block tx transfers) := by
  apply moves_bind moves_get
  intro c
  split_ifs
  · exact moves_throw _
  · apply moves_bind moves_get
    intro d
    split_ifs
    · exact moves_throw _
    · apply moves_bind (addTransactionOutputs_moves transfers)
      intro outputsAdded
      apply moves_bind (addTransactionInputs_moves 0 tx.inputs)
      intro inputsAdded
      exact moves_bind (moves_modify fun _ => rfl) fun _ => moves_pure _

theorem confirmTransfers_moves (hash : Hash) (gi : List ℕ) (rs : ℕ) :
    Moves (confirmTransfers block hash gi rs) := by
  induction rs with
  | zero => exact moves_pure ()
  | succ _ ih =>
    intro c
    rw [confirmTransfers, get_bind]
    cases hf : find (fun t => decide (t.transactionHash = hash)) c.unconfirmed with
    | none => exact .refl
    | some cur =>
      dsimp only
      cases hix : gi[cur.item.outputInTransaction]? with
      | none => exact .refl
      | some idx =>
        dsimp only
        split_ifs with hex
        · exact .refl
        · have hfr := Bool.eq_false_iff.mpr hex
          have hr := ih { c with
            toTransfers := c.confirm cur (confirmed block idx cur.item) }
          exact .head (.confirm (find_some hf).1 hfr) hr

theorem markTransactionConfirmed_moves (hash : Hash) (gi : List ℕ) :
    Moves (markTransactionConfirmed block hash gi) := by
  unfold markTransactionConfirmed
  split_ifs
  · exact moves_throw _
  · apply moves_bind moves_get
    intro c
    cases c.transaction hash with
    | none => exact moves_pure false
    | some _ =>
      dsimp only
      split_ifs
      · exact moves_pure false
      · refine moves_bind (moves_modify fun _ => rfl) ?_
        intro _
        apply moves_bind moves_get
        intro d
        apply moves_bind (confirmTransfers_moves hash gi _)
        intro _
        apply moves_bind
        · exact fun _ => .single .respend
        · exact fun _ => moves_pure true

theorem delete_reaches (s : Transfers) (hash : Hash) :
    Reaches s (s.deleteTransactionTransfers hash) := by
  apply eraseFound_keeps (I := Reaches s) (fun _ _ hl hr => hr.tail (.dropAvailable hl))
  apply eraseFound_keeps (I := Reaches s) (fun _ _ hl hr => hr.tail (.dropUnconfirmed hl))
  apply eraseFound_keeps (I := Reaches s) (fun _ _ hl hr => hr.tail (.release hl))
  exact .refl

theorem detachFrom_reaches (ht : ℕ) (l : List TransactionInformation)
    (c : TransfersContainer) : Reaches c.toTransfers (detachFrom ht l c).2.toTransfers := by
  induction l generalizing c with
  | nil => exact .refl
  | cons info _ ih =>
    have hd := (delete_reaches c.toTransfers info.transactionHash).trans
      (ih (c.deleteTransaction info.transactionHash))
    rw [detachFrom]
    split_ifs
    · exact hd
    · exact ih c
    · exact hd
    · exact .refl

theorem deleteUnconfirmed_reaches (c : TransfersContainer) (hash : Hash) :
    Reaches c.toTransfers (c.deleteUnconfirmedTransaction hash).2.toTransfers := by
  unfold TransfersContainer.deleteUnconfirmedTransaction
  cases c.transaction hash with
  | none => exact .refl
  | some _ =>
    dsimp only
    split_ifs
    · exact .refl
    · exact delete_reaches _ hash

end Steps

inductive Called : TransfersContainer → Prop
  | empty : Called .empty
  | add {c : TransfersContainer} (run : Called c) (block : TransactionBlockInfo)
      (tx : TransactionReader) (transfers : List TransactionOutputInformationIn) :
      Called (left (addTransaction block tx transfers c))
  | mark {c : TransfersContainer} (run : Called c) (block : TransactionBlockInfo) (hash : Hash)
      (globalIndices : List ℕ) : Called (left (markTransactionConfirmed block hash globalIndices c))
  | delete {c : TransfersContainer} (run : Called c) (hash : Hash) :
      Called (c.deleteUnconfirmedTransaction hash).2
  | detach {c : TransfersContainer} (run : Called c) (height : ℕ) : Called (c.detach height).2
  | advance {c : TransfersContainer} (run : Called c) (height : ℕ) :
      Called (c.advanceHeight height).2

theorem Called.kept {I : Transfers → Prop} (hemp : I ⟨[], [], []⟩)
    (hm : ∀ s s', Move s s' → I s → I s') {c : TransfersContainer} (h : Called c) :
    I c.toTransfers := by
  have hr : ∀ {s s' : Transfers}, Reaches s s' → I s → I s' := by
    intro s s' hr hs
    induction hr with
    | refl => exact hs
    | tail _ hl ih => exact hm _ _ hl ih
  induction h with
  | empty => exact hemp
  | add _ _ _ transfers ih => exact hr (addTransaction_moves transfers _) ih
  | mark _ _ hash gi ih =>
    exact hr (markTransactionConfirmed_moves hash gi _) ih
  | delete _ hash ih => exact hr (deleteUnconfirmed_reaches _ hash) ih
  | detach _ ht ih => exact hr (detachFrom_reaches ht _ _) ih
  | @advance _ _ _ ih =>
    unfold TransfersContainer.advanceHeight
    split_ifs <;> exact ih

variable {spent : List SpentTransfer}

section Respend

variable (block : TransactionBlockInfo) (hash : Hash) (p : SpentTransfer)

theorem copyToSpent_append {p : SpentTransfer}
    (h : ∀ q ∈ spent, q.output.descriptor ≠ p.output.descriptor) :
    copyToSpent spent p = spent ++ [p] := by
  apply if_neg
  intro hany
  obtain ⟨q,hq,heq⟩ := List.any_eq_true.mp hany
  exact h q hq (of_decide_eq_true heq)

theorem of_mem_copyToSpent {p q : SpentTransfer}
    (h : q ∈ copyToSpent spent p) : q ∈ spent ∨ q = p := by
  unfold copyToSpent at h
  split_ifs at h
  · exact .inl h
  · exact (List.mem_append.mp h).imp_right List.mem_singleton.mp

theorem isFor_of_descriptor {t u : Transfer} {ki : KeyImage} (h : t.descriptor = u.descriptor)
    (hu : u.isFor ki = true) : t.isFor ki = true := by
  rw [Transfer.isFor, h]
  exact hu

theorem respend_output : (p.respend block hash).output = p.output := by
  unfold SpentTransfer.respend
  split_ifs <;> rfl

theorem respend_spending :
    (p.respend block hash).spendingTransactionHash = p.spendingTransactionHash := by
  unfold SpentTransfer.respend
  split_ifs <;> rfl

end Respend

def sampleTransfer (amount : UInt64) (globalOutputIndex outputInTransaction : ℕ)
    (keyImage : KeyImage) : TransactionOutputInformationIn where
  amount := amount
  globalOutputIndex := globalOutputIndex
  outputInTransaction := outputInTransaction
  transactionPublicKey := 1
  kind := .key 5 keyImage

def sampleReader (hash : Hash) (inputs : List TransactionInput) : TransactionReader where
  transactionHash := hash
  transactionPublicKey := 1
  unlockTime := 0
  inputTotalAmount := 0
  outputTotalAmount := 0
  extra := []
  paymentId := none
  inputs := inputs

end Orbis.WalletMoves
