import Orbis.ChainOutcome

/-!
# Invariants of the node that hold after every call

A property of the main chain that `pushBlock` and `popBlock` keep, also when
they stop in a fault, is kept by every call on the node. The blocks and
transactions that move between chain, pool and alternative blocks carry a
property each on the way. Unlike a run of returning calls, the states
reached here include those left behind by a call that threw.
-/

set_option autoImplicit false

namespace Orbis.ChainUpheld

open FaultState ChainTypes ChainSemantic ChainInputs ChainBlock ChainPool ChainNode ChainOutcome

variable {b : Block} {l : List Block} {alt : AltChain} {n : Node}
variable {readd : Handler}

/-- Neither an `abort` nor a signature check over keys that the cache has
dropped. -/
def Survivable (fault : Fault) : Prop := fault ≠ .aborted ∧ fault ≠ .dangling

instance (fault : Fault) : Decidable (Survivable fault) :=
  inferInstanceAs (Decidable (_ ∧ _))

/-- What is asked of a chain property `J` with a block property `P` and a
transaction property `T`, which every transaction with `V` that passes the
semantic check has, for calls that may stop in the faults `E`. -/
structure Upholds (env : Env) (P : Block → Prop) (V T : Transaction → Prop)
    (J : MainChain → Prop) (E : Fault → Prop) : Prop where
  empty : J MainChain.empty
  stored : ∀ m, J m → ∀ e ∈ m.blocks, P e.bl ∧ ∀ entry ∈ e.transactions.drop 1, T entry.tx
  checked : ∀ tx : Transaction, V tx →
    checkTxSemantic env.ops tx.toTransactionPrefix = true → T tx
  push : ∀ now b txs, P b → (∀ tx ∈ txs, T tx) →
    Keeps J E (fun _ => True) (pushBlock env now b txs)
  pop : ∀ hash, Keeps J E (fun _ => True) (popStoredBlock env hash)
  inputs : ∀ now m tx, J m → T tx →
    Yields E (fun _ => True) (checkTransactionInputs env now m.blocks m.tables tx)
  faults : ∀ fault, Survivable fault → E fault

structure NodeHolds (env : Env) (P : Block → Prop) (T : Transaction → Prop)
    (J : MainChain → Prop) (n : Node) : Prop where
  main : J n.main
  pool : ∀ d ∈ n.pool.transactions, T d.tx
  alternatives : ∀ id entry, n.alternativeChains.lookup id = some entry → P entry.bl

theorem transactionByIndex_faults {bs : List BlockEntry} {idx : TransactionIndex} :
    Yields Survivable (fun _ => True) (transactionByIndex bs idx) := by
  unfold transactionByIndex
  split
  · exact yields_error (by decide)
  · split
    · exact yields_error (by decide)
    · exact yields_ok trivial

theorem findTransactions_faults (n : Node) (hashes : List Hash) :
    Yields Survivable (fun _ => True) (findTransactions n hashes) := by
  induction hashes with
  | nil => exact yields_ok trivial
  | cons _ _ ih =>
    unfold findTransactions
    split
    · exact yields_bind transactionByIndex_faults fun _ _ =>
        yields_bind ih fun _ _ => yields_ok trivial
    · refine yields_bind ih fun _ _ => ?_
      split <;> exact yields_ok trivial

variable {id : Hash} {m : MainChain} {tx : Transaction} {p : Pool} {txs : List Transaction}

theorem alternativeChain_faults {alts : Finmap (fun _ : Hash => BlockEntry)} {fuel : ℕ} :
    Yields Survivable (fun _ => True) (alternativeChain alts fuel id) := by
  induction fuel generalizing id with
  | zero =>
    unfold alternativeChain
    split
    · exact yields_ok trivial
    · exact yields_error (by decide)
  | succ _ ih =>
    unfold alternativeChain
    split
    · exact yields_ok trivial
    · exact yields_bind ih fun _ _ => yields_ok trivial

theorem examineAlternative_faults (env : Env) (b : Block) (id : Hash) (n : Node) :
    Yields Survivable (fun _ => True) (examineAlternative env b id n) := by
  have hpar : ∀ alt ht, Yields Survivable (fun _ => True) (alternativeParent env n alt ht) := by
    intro alt ht
    unfold alternativeParent
    split
    · split
      · exact yields_ok trivial
      · split
        · exact yields_error (by decide)
        · split <;> exact yields_ok trivial
    · split
      · exact yields_error (by decide)
      · exact yields_ok trivial
  unfold examineAlternative
  dsimp only
  split
  · exact yields_ok trivial
  · split
    · exact yields_ok trivial
    · have hs : Yields Survivable (fun _ => True) (getBlockCumulativeSize b n) :=
        yields_bind (findTransactions_faults n _) fun _ _ => yields_ok trivial
      refine yields_bind hs fun _ _ => ?_
      split
      · exact yields_ok trivial
      · split
        · exact yields_ok trivial
        · refine yields_bind alternativeChain_faults fun _ _ => ?_
          refine yields_bind (hpar _ _) fun _ _ => ?_
          split <;> exact yields_ok trivial

/-- What is asked of a property `I` of the node with a property `P` of its
blocks: the four moves that the calls are made of keep it, and a fault leaves
what `F` says. -/
structure Governs (env : Env) (now : UInt64) (P : Block → Prop) (F : Fault → Node → Prop)
    (I : Node → Prop) : Prop where
  main : ∀ n, I n → ∀ e ∈ n.main.blocks, P e.bl
  alternatives : ∀ n, I n → ∀ id entry, n.alternativeChains.lookup id = some entry → P entry.bl
  push : ∀ b, P b → Guards I F (fun _ => True) (pushPoolBlock env now b)
  pop : ∀ hash, Guards I F (fun _ => True) (popBlock env now hash)
  insert : ∀ n b alt parent, I n → P b → Examined env n b (env.getBlockHash b) alt parent →
    I (insertAlternative env (env.getBlockHash b) (storedEntry env n b alt parent) n)
  erase : ∀ n entry, I n → I (eraseAlternative env entry n)
  faults : ∀ fault n, Survivable fault → I n → F fault n

def Kept (I : Node → Prop) (entry : Hash × BlockEntry) : Prop :=
  ∃ n, I n ∧ n.alternativeChains.lookup entry.1 = some entry.2

structure Steers (env : Env) (now : UInt64) (P : Block → Prop) (F : Fault → Node → Prop)
    (I : Node → Prop) : Prop where
  main : ∀ n, I n → ∀ e ∈ n.main.blocks, P e.bl
  alternatives : ∀ n, I n → ∀ id entry, n.alternativeChains.lookup id = some entry → P entry.bl
  push : ∀ b, P b → Guards I F (fun _ => True) (pushPoolBlock env now b)
  pop : ∀ hash, Guards I F (fun _ => True) (popBlock env now hash)
  insert : ∀ n b alt parent, I n → P b → Examined env n b (env.getBlockHash b) alt parent →
    I (insertAlternative env (env.getBlockHash b) (storedEntry env n b alt parent) n)
  erase : ∀ n entry, I n → Kept I entry → I (eraseAlternative env entry n)
  faults : ∀ fault n, Survivable fault → I n → F fault n

variable {env : Env} {now : UInt64} {P : Block → Prop}

section Rule

variable {F : Fault → Node → Prop} {I : Node → Prop}

theorem Governs.steers (h : Governs env now P F I) : Steers env now P F I :=
  ⟨h.main,h.alternatives,h.push,h.pop,h.insert,fun n e hn _ => h.erase n e hn,h.faults⟩

variable (h : Steers env now P F I)

include h

theorem Steers.throw {α : Type} {Q : α → Prop} {fault : Fault} (hflt : Survivable fault) :
    Guards I F Q (throw fault : EStateM Fault Node α) :=
  guards_throw fun n hn => h.faults fault n hflt hn

theorem Steers.disconnect (cnt : ℕ) {rmd : List Block} (hrmd : ∀ b ∈ rmd, P b) :
    Guards I F (fun list => ∀ b ∈ list, P b) (disconnect env now cnt rmd) := by
  induction cnt generalizing rmd with
  | zero => exact guards_pure hrmd
  | succ _ ih =>
    refine guards_bind guards_get fun n hn => ?_
    cases hl : n.main.blocks.getLast? with
    | none => exact h.throw (by decide)
    | some blk =>
      have hblk := h.main n hn blk (List.mem_of_getLast? hl)
      exact guards_bind (h.pop _) fun _ _ => ih (List.forall_mem_cons.mpr ⟨hblk,hrmd⟩)

theorem Steers.reconnect (hl : ∀ b ∈ l, P b) :
    Guards I F (fun _ => True) (reconnect env now l) := by
  induction l with
  | nil => exact guards_pure trivial
  | cons b _ ih =>
    obtain ⟨hb,hr⟩ := List.forall_mem_cons.mp hl
    refine guards_bind (h.push b hb) fun res _ => ?_
    obtain ⟨_,_⟩ := res
    dsimp only
    split
    · exact guards_pure trivial
    · exact ih hr

theorem Steers.rollback (hl : ∀ b ∈ l, P b) (ht : ℕ) :
    Guards I F (fun _ => True) (rollbackBlockchainSwitching env now l ht) := by
  refine guards_bind guards_get fun n _ => ?_
  exact guards_bind (h.disconnect _ (by simp)) fun _ _ => h.reconnect hl

theorem Steers.connect (halt : ∀ e ∈ alt, Kept I e) :
    Guards I F (fun refused => ∀ e ∈ refused, Kept I e) (connect env now alt) := by
  induction alt with
  | nil => exact guards_pure halt
  | cons _ _ ih =>
    obtain ⟨⟨m,hm,hl⟩,hr⟩ := List.forall_mem_cons.mp halt
    refine guards_bind (h.push _ (h.alternatives m hm _ _ hl)) fun res _ => ?_
    obtain ⟨_,_⟩ := res
    dsimp only
    split
    · exact guards_pure halt
    · exact ih hr

theorem Steers.eraseAlternatives (halt : ∀ e ∈ alt, Kept I e) :
    Guards I F (fun _ => True) (modify (eraseAlternatives env alt)) := by
  refine guards_modify fun n hn => ?_
  induction alt generalizing n with
  | nil => exact hn
  | cons e _ ih =>
    obtain ⟨hent,hr⟩ := List.forall_mem_cons.mp halt
    exact ih hr _ (h.erase n e hn hent)

omit h in
theorem readdAll_guards (hr : ∀ b, P b → Guards I F (fun _ => True) (readd b))
    (hl : ∀ b ∈ l, P b) : Guards I F (fun _ => True) (readdAll readd l) := by
  induction l with
  | nil => exact guards_pure trivial
  | cons b _ ih =>
    obtain ⟨hb,hre⟩ := List.forall_mem_cons.mp hl
    refine guards_bind (hr b hb) fun res _ => ?_
    obtain ⟨_,_⟩ := res
    dsimp only
    split
    · exact guards_pure trivial
    · exact ih hre

theorem Steers.switch (hr : ∀ b, P b → Guards I F (fun _ => True) (readd b))
    (halt : ∀ e ∈ alt, Kept I e) (dc : Bool) :
    Guards I F (fun _ => True) (switchToAlternativeBlockchain env now readd alt dc) := by
  unfold switchToAlternativeBlockchain
  cases alt with
  | nil => exact guards_pure trivial
  | cons _ _ =>
    refine guards_bind guards_get fun n _ => ?_
    dsimp only
    split
    · exact guards_pure trivial
    · refine guards_bind (h.disconnect _ (by simp)) fun dis hd => ?_
      split
      · exact guards_bind (h.throw (Q := fun _ => False) (by decide)) fun _ hff => hff.elim
      · refine guards_bind (h.connect halt) fun refused href => ?_
        split
        · refine guards_bind (h.rollback hd _) fun _ _ => ?_
          exact guards_bind (h.eraseAlternatives href) fun _ _ => guards_pure trivial
        · split
          · refine guards_bind (guards_pure (Q := fun readded => readded = true) rfl)
              fun readded hrdd => ?_
            rw [hrdd]
            exact guards_bind (h.eraseAlternatives halt) fun _ _ => guards_pure trivial
          · refine guards_bind (readdAll_guards hr hd) fun readded _ => ?_
            split
            · exact guards_bind (h.rollback hd _) fun _ _ => guards_pure trivial
            · exact guards_bind (h.eraseAlternatives halt) fun _ _ => guards_pure trivial

theorem Steers.alternativeBlock (hr : ∀ b, P b → Guards I F (fun _ => True) (readd b)) (hb : P b) :
    Guards I F (fun _ => True) (alternativeBlock env now readd b (env.getBlockHash b)) := by
  intro n hn
  unfold ChainNode.alternativeBlock
  cases hv : examineAlternative env b (env.getBlockHash b) n with
  | error fault =>
    rw [bind_of_error ((reading_error _ _ _ _).mpr ⟨hv,rfl⟩)]
    exact h.throw ((examineAlternative_faults env b _ n).2 fault hv) n hn
  | ok verdict =>
    rw [bind_of_ok ((reading_ok _ _ _ _).mpr ⟨hv,rfl⟩)]
    cases verdict with
    | refuse _ => exact guards_pure trivial n hn
    | orphan => exact guards_pure trivial n hn
    | store alt _ flag =>
      obtain ⟨par,hex,rfl,-⟩ := examineAlternative_store hv
      have hi := h.insert n b alt par hn hb hex
      have hall : ∀ o ∈ alt ++ [(env.getBlockHash b, storedEntry env n b alt par)], Kept I o := by
        refine List.forall_mem_append.mpr ⟨?_,List.forall_mem_singleton.mpr ⟨_,hi,?_⟩⟩
        · exact fun o hoth => ⟨n,hn,mem_alternativeChain hex.chain o hoth⟩
        · exact Finmap.lookup_insert _
      show Ends I F _ (storeAlternative env now readd _ alt _ flag n)
      unfold storeAlternative
      rw [modify_bind]
      refine guards_bind guards_get (fun m _ => ?_) _ hi
      split
      · exact guards_bind (h.switch hr hall true) fun _ _ => guards_pure trivial
      · split
        · exact h.throw (by decide)
        · split
          · exact guards_bind (h.switch hr hall false) fun _ _ => guards_pure trivial
          · exact guards_pure trivial

theorem Steers.handleAlternativeBlock (fuel : ℕ) (hb : P b) : Guards I F (fun _ => True)
      (handleAlternativeBlock env now fuel b (env.getBlockHash b)) := by
  induction fuel generalizing b with
  | zero => exact h.alternativeBlock (fun _ _ => h.throw (by decide)) hb
  | succ _ ih => exact h.alternativeBlock (fun _ hold => ih hold) hb

theorem Steers.addNewBlock (fuel : ℕ) (hb : P b) :
    Guards I F (fun _ => True) (addNewBlock env now fuel b) := by
  refine guards_bind guards_get fun n _ => ?_
  dsimp only
  split_ifs
  · exact guards_pure trivial
  · exact guards_pure trivial
  · exact h.handleAlternativeBlock fuel hb
  · exact h.push b hb

end Rule

section Node

variable {V T : Transaction → Prop} {J : MainChain → Prop} {E : Fault → Prop}
  (h : Upholds env P V T J E)

include h

theorem addTx_faults (hm : J m) (limit : UInt64) (htx : T tx) (id : Hash) (size : UInt64)
    (kept : Bool) (p : Pool) :
    Yields E (fun _ => True) (addTx env now m limit tx id size kept p) := by
  have hchk : Yields E (fun _ => True) (checkInputsForPool env now m tx) := by
    refine yields_bind (h.inputs now m tx hm htx) fun res _ => ?_
    obtain ⟨valid,_⟩ := res
    cases valid with
    | false => exact yields_ok trivial
    | true =>
      dsimp only
      split
      · exact yields_ok trivial
      · split <;> exact yields_ok trivial
  unfold addTx
  dsimp only
  split_ifs
  · exact yields_ok trivial
  · exact yields_ok trivial
  · exact yields_ok trivial
  · exact yields_ok trivial
  · exact yields_bind hchk fun _ _ => yields_ok trivial

theorem addTx_holds (hm : J m) {limit : UInt64} (htx : T tx) {size : UInt64} {kept : Bool}
    (hp : ∀ d ∈ p.transactions, T d.tx) : Yields E (fun res => ∀ d ∈ res.2.transactions, T d.tx)
      (addTx env now m limit tx id size kept p) := by
  refine ⟨?_,(addTx_faults h hm limit htx id size kept p).2⟩
  rintro ⟨⟨added,tvc⟩,p'⟩ hadd d hd
  rcases addTx_transactions env now hadd with ⟨hs,-⟩ | ⟨-,_,-,rfl,hmo⟩
  · exact hp d (hs ▸ hd)
  · change d ∈ p'.transactions at hd
    rw [hmo, List.mem_append, List.mem_singleton] at hd
    rcases hd with hold | rfl
    · exact hp d hold
    · exact htx

theorem returnTx_holds (htx : T tx) :
    Keeps (NodeHolds env P T J) E (fun _ => True) (returnTx env now tx) := by
  unfold returnTx
  refine keeps_bind keeps_get fun n hn => ?_
  refine keeps_bind (keeps_reading fun n' hn' => addTx_holds h hn'.main htx hn'.pool)
    fun res hres => ?_
  exact keeps_bind (keeps_set ⟨hn.main,hres,hn.alternatives⟩) fun _ _ => keeps_pure trivial

theorem returnTxs_holds (htxs : ∀ tx ∈ txs, T tx) :
    Keeps (NodeHolds env P T J) E (fun _ => True) (returnTxs env now txs) := by
  induction txs with
  | nil => exact keeps_pure trivial
  | cons tx _ ih =>
    refine keeps_bind (returnTx_holds h (htxs tx (by simp))) fun added _ => ?_
    have hr := ih fun o hoth => htxs o (List.mem_cons_of_mem _ hoth)
    split
    · exact keeps_bind (keeps_throw (Q := fun _ => True) (h.faults _ (by decide))) fun _ _ => hr
    · exact hr

theorem saveTransactions_holds (htxs : ∀ tx ∈ txs, T tx) :
    Keeps (NodeHolds env P T J) E (fun _ => True) (saveTransactions env now txs) :=
  returnTxs_holds h fun tx htx => htxs tx (List.mem_reverse.mp htx)

omit h in
theorem takeTx_holds (env : Env) (id : Hash) (hp : ∀ d ∈ p.transactions, T d.tx) :
    (∀ tx, (takeTx env id p).1 = some tx → T tx) ∧
      ∀ d ∈ (takeTx env id p).2.transactions, T d.tx := by
  rcases takeTx_cases env id p with ⟨-,ht⟩ | ⟨d,hd,-,ht⟩
  · rw [ht]
    exact ⟨nofun,hp⟩
  · rw [ht]
    refine ⟨?_,?_⟩
    · intro tx heq
      cases heq
      exact hp d hd
    · intro e he
      dsimp only at he
      rw [removeTransaction_transactions] at he
      exact hp e (List.mem_of_mem_filter he)

omit h in
theorem takeTransaction_holds (id : Hash) :
    Keeps (NodeHolds env P T J) E (fun taken => ∀ tx, taken = some tx → T tx)
      (takeTransaction env id) := by
  unfold takeTransaction
  refine keeps_bind keeps_get fun n hn => ?_
  have ht := takeTx_holds env id hn.pool
  exact keeps_bind (keeps_set ⟨hn.main,ht.2,hn.alternatives⟩) fun _ _ => keeps_pure ht.1

theorem loadTransactions_holds (hashes : List Hash) {done : List Transaction}
    (hd : ∀ tx ∈ done, T tx) :
    Keeps (NodeHolds env P T J) E (fun ld => ∀ txs, ld = some txs → ∀ tx ∈ txs, T tx)
      (loadTransactions env now hashes done) := by
  induction hashes generalizing done with
  | nil =>
    refine keeps_pure ?_
    intro txs heq tx htx
    cases heq
    exact hd tx (List.mem_reverse.mp htx)
  | cons id _ ih =>
    refine keeps_bind (takeTransaction_holds id) fun taken htkn => ?_
    cases taken with
    | none =>
      refine keeps_bind (returnTxs_holds h hd) fun _ _ => keeps_pure ?_
      intro txs heq
      cases heq
    | some _ =>
      refine ih ?_
      intro o hoth
      rcases List.mem_cons.mp hoth with rfl | hold
      · exact htkn o rfl
      · exact hd o hold

omit h in
theorem onMain_holds {α : Type} {x : EStateM Fault MainChain α} (hx : Keeps J E (fun _ => True) x) :
    Keeps (NodeHolds env P T J) E (fun _ => True) (onMain x) :=
  keeps_within hx (fun _ hn => hn.main) fun _ _ hn hm => ⟨hm,hn.pool,hn.alternatives⟩

theorem pushPoolBlock_holds (hb : P b) :
    Keeps (NodeHolds env P T J) E (fun _ => True) (pushPoolBlock env now b) := by
  refine keeps_bind (loadTransactions_holds h b.transactionHashes (by simp)) fun ld hlod => ?_
  cases ld with
  | none => exact keeps_pure trivial
  | some txs =>
    have htxs := hlod txs rfl
    refine keeps_bind (onMain_holds (h.push now b txs hb htxs)) fun res _ => ?_
    obtain ⟨added,_⟩ := res
    cases added with
    | true =>
      exact keeps_bind (keeps_modify fun n hn => ⟨hn.main,hn.pool,hn.alternatives⟩) fun _ _ =>
        keeps_pure trivial
    | false => exact keeps_bind (saveTransactions_holds h htxs) fun _ _ => keeps_pure trivial

theorem popBlock_holds (hash : Hash) :
    Keeps (NodeHolds env P T J) E (fun _ => True) (popBlock env now hash) := by
  unfold popBlock
  refine keeps_bind keeps_get fun n hn => ?_
  cases hl : n.main.blocks.getLast? with
  | none => exact keeps_pure trivial
  | some blk =>
    have hsto := h.stored n.main hn.main blk (List.mem_of_getLast? hl)
    refine keeps_bind (saveTransactions_holds h ?_) fun _ _ => onMain_holds (h.pop hash)
    intro tx htx
    obtain ⟨e,hent,rfl⟩ := List.mem_map.mp htx
    exact hsto.2 e hent

omit h in
theorem NodeHolds.erase (hn : NodeHolds env P T J n) (e : Hash × BlockEntry) :
    NodeHolds env P T J (eraseAlternative env e n) := by
  refine ⟨hn.main,hn.pool,?_⟩
  intro id o hl
  change (n.alternativeChains.erase e.1).lookup id = some o at hl
  by_cases hid : id = e.1
  · rw [hid, Finmap.lookup_erase] at hl
    cases hl
  · rw [Finmap.lookup_erase_ne hid] at hl
    exact hn.alternatives id o hl

omit h in
theorem NodeHolds.insert (hn : NodeHolds env P T J n) (id : Hash) {e : BlockEntry}
    (hent : P e.bl) : NodeHolds env P T J (insertAlternative env id e n) := by
  refine ⟨hn.main,hn.pool,?_⟩
  intro o found hl
  change (n.alternativeChains.insert id e).lookup o = some found at hl
  by_cases hid : o = id
  · rw [hid, Finmap.lookup_insert, Option.some.injEq] at hl
    rw [← hl]
    exact hent
  · rw [Finmap.lookup_insert_of_ne _ hid] at hl
    exact hn.alternatives o found hl

theorem governs_holds :
    Governs env now P (fun fault n => NodeHolds env P T J n ∧ E fault) (NodeHolds env P T J) where
  main := fun n hn e he => (h.stored n.main hn.main e he).1
  alternatives := fun _ hn => hn.alternatives
  push := fun _ hb => pushPoolBlock_holds h hb
  pop := popBlock_holds h
  insert := fun _ _ _ _ hn hb _ => hn.insert _ hb
  erase := fun _ en hn => hn.erase en
  faults := fun fault _ hflt hn => ⟨hn,h.faults fault hflt⟩

theorem addNewBlock_holds (fuel : ℕ) (hb : P b) :
    Keeps (NodeHolds env P T J) E (fun _ => True) (addNewBlock env now fuel b) :=
  (governs_holds h).steers.addNewBlock fuel hb

theorem handleIncomingTransaction_holds (hV : V tx) (kept : Bool) :
    Keeps (NodeHolds env P T J) E (fun _ => True) (handleIncomingTransaction env now tx kept) := by
  refine keeps_bind keeps_get fun n hn => ?_
  dsimp only
  split_ifs with hsem hcn hp
  · exact keeps_pure trivial
  · exact keeps_pure trivial
  · exact keeps_pure trivial
  · have htx := h.checked tx hV (by simpa using hsem)
    refine keeps_bind (keeps_reading fun n' hn' => addTx_holds h hn'.main htx hn'.pool)
      fun res hres => ?_
    exact keeps_bind (keeps_set ⟨hn.main,hres,hn.alternatives⟩) fun _ _ => keeps_pure trivial

omit h in
theorem removeExpired_holds (hn : NodeHolds env P T J n) :
    NodeHolds env P T J (n.setPool (removeExpiredTransactions env now n.pool)) := by
  refine ⟨hn.main,?_,hn.alternatives⟩
  intro d hd
  exact hn.pool d (mem_of_mem_removeExpired env now n.pool.transactions
    (forgetDeleted env now n.pool) hd)

end Node

/-- The states of a node under calls with any outcome, thrown exceptions
included, whose blocks meet `P` and whose transactions meet `V`. -/
inductive Reached (env : Env) (P : Block → Prop) (V : Transaction → Prop) : Node → Prop
  | genesis (now : UInt64) (allowed : P env.currency.genesisBlock) :
      Reached env P V (left (pushPoolBlock env now env.currency.genesisBlock Node.empty))
  | block {n : Node} (before : Reached env P V n) (now : UInt64) (fuel : ℕ) {b : Block}
      (allowed : P b) : Reached env P V (left (addNewBlock env now fuel b n))
  | transaction {n : Node} (before : Reached env P V n) (now : UInt64) {tx : Transaction}
      (allowed : V tx) (kept : Bool) :
      Reached env P V (left (handleIncomingTransaction env now tx kept n))
  | idle {n : Node} (before : Reached env P V n) (now : UInt64) :
      Reached env P V (n.setPool (removeExpiredTransactions env now n.pool))

theorem Reached.holds {env : Env} {P : Block → Prop} {V T : Transaction → Prop}
    {J : MainChain → Prop} {E : Fault → Prop} (h : Upholds env P V T J E)
    (hn : Reached env P V n) : NodeHolds env P T J n := by
  induction hn with
  | genesis _ allowed =>
    refine (pushPoolBlock_holds h allowed).left ⟨h.empty,?_,?_⟩
    · intro d hd
      cases hd
    · intro id e hl
      simp [Node.empty] at hl
  | block _ _ fuel allowed ih => exact (addNewBlock_holds h fuel allowed).left ih
  | transaction _ _ allowed kept ih =>
    exact (handleIncomingTransaction_holds h allowed kept).left ih
  | idle _ _ ih => exact removeExpired_holds ih

end Orbis.ChainUpheld
