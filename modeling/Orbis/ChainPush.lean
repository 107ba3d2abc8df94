import Orbis.ChainStack

/-!
# What adding a block does to sound tables

The loop over the transactions of a block is described without the tables'
own bookkeeping: `checkAll` runs the input checks against the tables in which
the earlier transactions of the block are entered, and `enterAll` enters
them. On tables with a record of their transactions the loop of the source
does exactly this, and its undo restores the tables before the block.
-/

set_option autoImplicit false

namespace Orbis.ChainPush

open FaultState ChainTypes ChainSemantic ChainTables ChainUndo ChainInputs
open ChainBlock ChainStack

variable (env : Env)

variable {blk : BlockEntry} {tx : Transaction} {U : Set Transaction} {m : MainChain} {T : Tables}
variable {done rest : List Transaction} {now : UInt64} {mu : ℕ}

def entryOf (height k : ℕ) (tx : Transaction) (t : Tables) : TransactionEntry where
  tx := tx
  globalOutputIndexes := (pushOutputs (position height k) 0 tx.outputs (consumeInputs tx.inputs
    (insertTransaction (env.getObjectHash tx) (position height k) t))).2

def entriesAll (height : ℕ) : ℕ → List Transaction → Tables → List TransactionEntry
  | _, [], _ => []
  | k, tx :: rest, t =>
    entryOf env height k tx t :: entriesAll height (k + 1) rest (enter env height k tx t)

def checkAll (now : UInt64) (blocks : List BlockEntry) :
    ℕ → List Transaction → Tables → Except Fault Bool
  | _, [], _ => .ok true
  | k, tx :: rest, t => do
    let (valid, _) ← checkTransactionInputs env now blocks t tx
    if !valid then .ok false
    else if 2 ^ 16 ≤ tx.outputs.length then .error .endless
    else checkAll now blocks (k + 1) rest (enter env blocks.length k tx t)

def totalSize (size : UInt64) (txs : List Transaction) : UInt64 :=
  (txs.map getObjectBinarySize).foldl (· + ·) size

def totalFee (fee : UInt64) (txs : List Transaction) : UInt64 :=
  (txs.map transactionFee).foldl (· + ·) fee

def addEntries (block : BlockEntry) (entries : List TransactionEntry) : BlockEntry :=
  { block with transactions := block.transactions ++ entries }

theorem entriesAll_tx (ht k : ℕ) (txs : List Transaction) (t : Tables) :
    (entriesAll env ht k txs t).map TransactionEntry.tx = txs := by
  induction txs generalizing k t with
  | nil => rfl
  | cons _ _ ih => simp [entriesAll, entryOf, ih]

theorem position_next (ht k : ℕ) : nextTransaction (position ht k) = position ht (k + 1) := by
  have hn : UInt16.ofNat k + 1 = UInt16.ofNat (k + 1) := by
    rw [UInt16.ofNat_add]
    rfl
  simp only [nextTransaction, position, hn]

theorem position_toNat {ht k : ℕ} (hk : k < 2 ^ 16) : (position ht k).transaction.toNat = k :=
  UInt16.toNat_ofNat_of_lt' hk

theorem pushTransaction_append (ht : ℕ) {t : Tables} (hk : blk.transactions.length < 2 ^ 16)
    (hadm : Admissible t tx (env.getObjectHash tx)) :
    pushTransaction env (appendTransaction blk tx) (env.getObjectHash tx)
        (position ht blk.transactions.length) t =
      .ok (true, addEntries blk [entryOf env ht blk.transactions.length tx t])
        (enter env ht blk.transactions.length tx t) := by
  have hpl : (appendTransaction blk tx).transactions[
      (position ht blk.transactions.length).transaction.toNat]? =
      some ⟨tx, []⟩ := by
    rw [position_toNat hk]
    simp [appendTransaction]
  rw [pushTransaction_ok hpl hadm, position_toNat hk]
  simp [setGlobalOutputIndexes, appendTransaction, addEntries, entryOf, enter]

/-- The state of the loop over the transactions of a block, with `done`
entered on top of the tables `T` before the block and `rest` to come. -/
structure Entering (U : Set Transaction) (m : MainChain) (T : Tables)
    (done rest : List Transaction) (block : BlockEntry) : Prop where
  tables : m.tables = enterAll env m.blocks.length 0 (block.bl.baseTransaction :: done) T
  admissible : AdmissibleAll env m.blocks.length 0 (block.bl.baseTransaction :: done) T
  compact : Compact T
  recorded : Recorded env U (m.blocks.length + 1) m.tables
  transactions : block.transactions.map TransactionEntry.tx = block.bl.baseTransaction :: done
  hashes : block.bl.transactionHashes = (done ++ rest).map env.getObjectHash
  offered : ∀ tx ∈ rest, tx ∈ U ∧ Semantic env.ops tx.toTransactionPrefix
  count : (done ++ rest).length < 2 ^ 16

variable {env}

theorem Entering.length (h : Entering env U m T done rest blk)
    : blk.transactions.length = done.length + 1 := by
  have := congrArg List.length h.transactions
  simpa using this

theorem Entering.undo (h : Entering env U m T done rest blk) :
    onTables (popTransactions env blk (env.getObjectHash blk.bl.baseTransaction)) m =
        .ok ⟨⟩ (m.setTables T) ∨
      ¬ (∀ tx ∈ blk.bl.baseTransaction :: done, Lasting T tx) ∧ ∃ left,
        onTables (popTransactions env blk (env.getObjectHash blk.bl.baseTransaction)) m =
          .error .erased left := by
  have hen : ((blk.transactions.drop 1).map TransactionEntry.tx).zip
      blk.bl.transactionHashes = pairs env done := by
    rw [List.map_drop, h.transactions, h.hashes, List.map_append, List.drop_one, List.tail_cons,
      zip_eq_pairs]
  have hpop := popEntries_enterAll env m.blocks.length blk.bl.baseTransaction done
    h.admissible h.compact
  rw [← h.tables] at hpop
  rw [onTables, popTransactions, hen, within_ok]
  rcases hpop with hok | ⟨hnot,left,herr⟩
  · exact .inl ⟨T,hok,rfl⟩
  · exact .inr ⟨hnot,_,(within_error ..).mpr ⟨left,herr,rfl⟩⟩

theorem Entering.admissible_next (hU : TxInj env U) (h : Entering env U m T done (tx :: rest) blk)
    (hchk : checkTransactionInputs env now m.blocks m.tables tx = .ok (true, mu))
    (hsh : tx.outputs.length < 2 ^ 16) : Admissible m.tables tx (env.getObjectHash tx) := by
  obtain ⟨htx,hsem⟩ := h.offered tx (by simp)
  exact admissible_of_checked env hU h.recorded htx hsem
    (fun inp hin => free_of_checkTransactionInputs hchk hin) hsh

theorem Entering.next (h : Entering env U m T done (tx :: rest) blk)
    (hadm : Admissible m.tables tx (env.getObjectHash tx)) :
    Entering env U (m.setTables (enter env m.blocks.length (done.length + 1) tx m.tables)) T
      (done ++ [tx]) rest
      (addEntries blk [entryOf env m.blocks.length (done.length + 1) tx m.tables]) where
  tables := by
    change enter env m.blocks.length (done.length + 1) tx m.tables =
      enterAll env m.blocks.length 0 (blk.bl.baseTransaction :: done ++ [tx]) T
    rw [enterAll_append, ← h.tables, enterAll_singleton, List.length_cons, Nat.zero_add]
  admissible := by
    change AdmissibleAll env m.blocks.length 0 (blk.bl.baseTransaction :: done ++ [tx]) T
    rw [admissibleAll_append, ← h.tables]
    exact ⟨h.admissible,hadm,trivial⟩
  compact := h.compact
  recorded := by
    obtain ⟨htx,hsem⟩ := h.offered tx (by simp)
    exact recorded_applyTransaction env le_rfl _ h.recorded hadm htx
      (.inr ⟨hsem.inputs_ne,hsem.supported⟩)
  transactions := by
    simp [addEntries, h.transactions, entryOf]
  hashes := by
    simp [addEntries, h.hashes]
  offered := fun o hoth => h.offered o (List.mem_cons_of_mem _ hoth)
  count := by
    have := h.count
    simpa using this

theorem checkInputsOf_ok {valid : Bool}
    (h : checkTransactionInputs env now m.blocks m.tables tx = .ok (valid, mu)) :
    reading (checkInputsOf env now tx) m = .ok valid m := by
  rw [reading_ok]
  refine ⟨?_,rfl⟩
  simp [checkInputsOf, h]

theorem pushTransactions_step (h : Entering env U m T done (tx :: rest) blk)
    (hchk : checkTransactionInputs env now m.blocks m.tables tx = .ok (true, mu))
    (hadm : Admissible m.tables tx (env.getObjectHash tx)) (mh : Hash) (size fee : UInt64) :
    pushTransactions env now mh (pairs env (tx :: rest)) blk
        (position m.blocks.length done.length) size fee m =
      pushTransactions env now mh (pairs env rest)
        (addEntries blk [entryOf env m.blocks.length (done.length + 1) tx m.tables])
        (position m.blocks.length (done.length + 1)) (size + getObjectBinarySize tx)
        (fee + transactionFee tx)
        (m.setTables (enter env m.blocks.length (done.length + 1) tx m.tables)) := by
  have hlen := h.length
  have hk : blk.transactions.length < 2 ^ 16 := by
    have := h.count
    simp only [List.length_append, List.length_cons] at this
    omega
  have hp := pushTransaction_append env m.blocks.length hk hadm
  rw [hlen] at hp
  have hon : onTables (pushTransaction env (appendTransaction blk tx) (env.getObjectHash tx)
      (nextTransaction (position m.blocks.length done.length))) m = .ok
        (true, addEntries blk [entryOf env m.blocks.length (done.length + 1) tx m.tables])
        (m.setTables (enter env m.blocks.length (done.length + 1) tx m.tables)) := by
    rw [onTables, within_ok, position_next]
    exact ⟨_,hp,rfl⟩
  simp only [pairs, List.map_cons, pushTransactions]
  rw [bind_of_ok (checkInputsOf_ok hchk)]
  simp only [Bool.not_true, Bool.false_eq_true, if_false]
  rw [bind_of_ok hon, position_next]

theorem Entering.endless (hU : TxInj env U) (h : Entering env U m T done (tx :: rest) blk)
    (hchk : checkTransactionInputs env now m.blocks m.tables tx = .ok (true, mu))
    (hl : 2 ^ 16 ≤ tx.outputs.length) (mh : Hash) (size fee : UInt64) :
    ∃ left, pushTransactions env now mh (pairs env (tx :: rest)) blk
      (position m.blocks.length done.length) size fee m = .error .endless left := by
  obtain ⟨htx,hsem⟩ := h.offered tx (by simp)
  have hf : ∀ inp ∈ tx.inputs, FreeInput m.tables inp :=
    fun inp hin => free_of_checkTransactionInputs hchk hin
  have hlen := h.length
  have hk : done.length + 1 < 2 ^ 16 := by
    have := h.count
    simp only [List.length_append, List.length_cons] at this
    omega
  have hpl : (appendTransaction blk tx).transactions[
      (position m.blocks.length (done.length + 1)).transaction.toNat]? = some ⟨tx, []⟩ := by
    rw [position_toNat hk, ← hlen]
    simp [appendTransaction]
  obtain ⟨t,ht⟩ := pushTransaction_endless env hpl
    (fresh_of_free env hU h.recorded htx hsem.inputs_ne hf)
    (spendable_of_free env hsem hf) hl
  have hon : onTables (pushTransaction env (appendTransaction blk tx) (env.getObjectHash tx)
      (nextTransaction (position m.blocks.length done.length))) m =
        .error .endless (m.setTables t) := by
    rw [onTables, within_error, position_next]
    exact ⟨t,ht,rfl⟩
  refine ⟨m.setTables t,?_⟩
  simp only [pairs, List.map_cons, pushTransactions]
  rw [bind_of_ok (checkInputsOf_ok hchk)]
  simp only [Bool.not_true, Bool.false_eq_true, if_false]
  rw [bind_of_error hon]

theorem addEntries_addEntries {l r : List TransactionEntry} :
    addEntries (addEntries blk l) r = addEntries blk (l ++ r) := by
  simp [addEntries]

/-- What the loop does by the result of the checks: it enters all transactions,
it puts the tables back for one that does not pass, or it stops with the fault
of the check or of the 16-bit counter. -/
def Outcome (env : Env) (now : UInt64) (U : Set Transaction) (m : MainChain) (T : Tables)
    (done rest : List Transaction) (block : BlockEntry) (size fee : UInt64)
    (result : Except Fault Bool) : Prop :=
  let entries := entriesAll env m.blocks.length (done.length + 1) rest m.tables
  let entered := m.setTables (enterAll env m.blocks.length (done.length + 1) rest m.tables)
  let run := pushTransactions env now (env.getObjectHash block.bl.baseTransaction)
    (pairs env rest) block (position m.blocks.length done.length) size fee m
  match result with
  | .ok true =>
    run = .ok (some (addEntries block entries, totalSize size rest, totalFee fee rest)) entered ∧
      Entering env U entered T (done ++ rest) [] (addEntries block entries)
  | .ok false => run = .ok none (m.setTables T) ∨
      ¬ (∀ tx ∈ block.bl.baseTransaction :: (done ++ rest), Lasting T tx) ∧
        ∃ left, run = .error .erased left
  | .error fault => ∃ left, run = .error fault left

theorem Outcome.earlier {size fee : UInt64} {res : Except Fault Bool}
    (h : Entering env U m T done (tx :: rest) blk)
    (hchk : checkTransactionInputs env now m.blocks m.tables tx = .ok (true, mu))
    (hadm : Admissible m.tables tx (env.getObjectHash tx)) (hlat : Outcome env now U
      (m.setTables (enter env m.blocks.length (done.length + 1) tx m.tables)) T (done ++ [tx]) rest
      (addEntries blk [entryOf env m.blocks.length (done.length + 1) tx m.tables])
      (size + getObjectBinarySize tx) (fee + transactionFee tx) res) :
    Outcome env now U m T done (tx :: rest) blk size fee res := by
  have hlen : (done ++ [tx]).length = done.length + 1 := List.length_append
  have hs := pushTransactions_step h hchk hadm (env.getObjectHash blk.bl.baseTransaction) size fee
  cases res with
  | error _ =>
    obtain ⟨left,hl⟩ := hlat
    rw [hlen] at hl
    exact ⟨left,hs.trans hl⟩
  | ok passed =>
    cases passed with
    | false =>
      simp only [Outcome, hlen, List.append_assoc, List.singleton_append] at hlat
      exact hlat.imp hs.trans fun ⟨hnot,left,hl⟩ => ⟨hnot,left,hs.trans hl⟩
    | true =>
      simp only [Outcome, hlen, MainChain.setTables_blocks, MainChain.setTables_tables,
        MainChain.setTables_setTables, addEntries_addEntries, List.append_assoc,
        List.singleton_append] at hlat
      exact ⟨hs.trans hlat.1,hlat.2⟩

theorem pushTransactions_outcome (hU : TxInj env U) (h : Entering env U m T done rest blk)
    (size fee : UInt64) : Outcome env now U m T done rest blk size fee
      (checkAll env now m.blocks (done.length + 1) rest m.tables) := by
  induction rest generalizing done blk m size fee with
  | nil =>
    constructor
    · simp [pairs, pushTransactions, entriesAll, addEntries, totalSize, totalFee, enterAll]
    · simpa [entriesAll, addEntries, enterAll] using h
  | cons tx _ ih =>
    cases hins : checkTransactionInputs env now m.blocks m.tables tx with
    | error fault =>
      have hr : reading (checkInputsOf env now tx) m = .error fault m := by
        rw [reading_error]
        exact ⟨by simp [checkInputsOf, hins],rfl⟩
      simp only [checkAll, hins, bind, Except.bind]
      refine ⟨m,?_⟩
      simp only [pairs, List.map_cons, pushTransactions]
      rw [bind_of_error hr]
    | ok res =>
      obtain ⟨valid,_⟩ := res
      simp only [checkAll, hins, bind, Except.bind]
      cases valid with
      | false =>
        simp only [Bool.not_false, if_true, Outcome, pairs, List.map_cons, pushTransactions]
        rw [bind_of_ok (checkInputsOf_ok hins)]
        simp only [Bool.not_false, if_true]
        rcases h.undo with hok | ⟨hnot,left,herr⟩
        · rw [bind_of_ok hok]
          exact .inl rfl
        · refine .inr ⟨fun hall => hnot fun x hx => hall x ?_,left,bind_of_error herr⟩
          rw [← List.cons_append]
          exact List.mem_append_left _ hx
      | true =>
        simp only [Bool.not_true, Bool.false_eq_true, if_false]
        by_cases hl : 2 ^ 16 ≤ tx.outputs.length
        · rw [if_pos hl]
          exact h.endless hU hins hl _ size fee
        · rw [if_neg hl]
          have hadm := h.admissible_next hU hins (not_le.mp hl)
          have hlat := ih (h.next hadm) (size + getObjectBinarySize tx) (fee + transactionFee tx)
          rw [List.length_append] at hlat
          exact hlat.earlier h hins hadm

end Orbis.ChainPush
