import Orbis.HalvingSearch
import Orbis.ChainBinary
import Orbis.ChainWindow
import Orbis.ChainCache

/-!
# What a wallet is told about the chain

A wallet sends the ids of blocks that it knows and a time, and the node
answers with the ids of the blocks from the first known one on, and with the
blocks themselves where they are recent enough. Where the blocks begin is
found by a binary search for the time, although the times of a chain are not
ordered, so a recent block can be among those of which only the id is sent.
-/

set_option autoImplicit false

namespace Orbis.ChainQuery

open FaultState HalvingSearch ByteCodec ChainTypes ChainSemantic ChainTables ChainInputs ChainBlock
open ChainStack ChainSound ChainBuilt ChainRun ChainRestore ChainLedger ChainCache
open ChainWindow ChainBinary

variable {height hgt k : ℕ} {block blk : BlockEntry}

def blocksIdsSynchronizingDefaultCount : ℕ := 10000

def blocksSynchronizingDefaultCount : ℕ := 200

variable {α : Type} {P : Block → Prop} {ck : UInt64}

section Query

variable (env : Env) (m : MainChain)

def findSupplement (ids : List Hash) : Option ℕ := ids.findSome? fun id => m.blockIndex.idxOf? id

def isEarlier (timestamp : UInt64) (height : ℕ) : Bool :=
  match m.blocks[height]? with
  | none => false
  | some block => decide (block.bl.timestamp < timestamp - env.currency.blockFutureTimeLimit)

def getLowerBound (timestamp : UInt64) (startOffset : ℕ) : Option ℕ :=
  let bound := lowerBound (isEarlier env m timestamp) startOffset (m.blocks.length - startOffset)
  if bound = m.blocks.length then none else some bound

def findStartAndFullOffsets (knownBlockIds : List Hash) (timestamp : UInt64) :
    Except Fault (Option (ℕ × ℕ)) :=
  match knownBlockIds.getLast? with
  | none => .ok none
  | some last =>
    match m.blockIndex[0]? with
    | none => .error .undefined
    | some genesis =>
      if last ≠ genesis then .ok none
      else
        match findSupplement m knownBlockIds with
        | none => .error .undefined
        | some startOffset => .ok (some
          (startOffset, (getLowerBound env m timestamp startOffset).getD startOffset))

def getBlockIds (startHeight maxCount : ℕ) : List Hash :=
  (m.blockIndex.drop startHeight).take maxCount

def findIdsForShortBlocks (startOffset startFullOffset : ℕ) : List Hash :=
  if startOffset < startFullOffset then
    getBlockIds m startOffset
      (min blocksIdsSynchronizingDefaultCount (startFullOffset - startOffset))
  else []

def getBlocks (startOffset count : ℕ) : List Block :=
  ((m.blocks.drop startOffset).take count).map BlockEntry.bl

def getTransactions : List Hash → Except Fault (List Transaction)
  | [] => .ok []
  | id :: rest =>
    match m.tables.transactionMap.lookup id with
    | none => getTransactions rest
    | some index => do
      let entry ← transactionByIndex m.blocks index
      let others ← getTransactions rest
      .ok (entry.tx :: others)

structure Answer (α : Type) where
  startHeight : ℕ
  currentHeight : ℕ
  fullOffset : ℕ
  entries : List α

structure Format (α : Type) where
  short : Hash → α
  full : Hash → Block → List Transaction → α

variable (format : Format α)

def fillEntries (timestamp : UInt64) : List Block → Except Fault (List α)
  | [] => .ok []
  | b :: rest =>
    if timestamp ≤ b.timestamp then do
      let txs ← getTransactions m b.transactionHashes
      let others ← fillEntries timestamp rest
      .ok (format.full (env.getBlockHash b) b txs :: others)
    else do
      let others ← fillEntries timestamp rest
      .ok (format.short (env.getBlockHash b) :: others)

def queryEntries (knownBlockIds : List Hash) (timestamp : UInt64) :
    Except Fault (Option (Answer α)) := do
  match ← findStartAndFullOffsets env m knownBlockIds timestamp with
  | none => .ok none
  | some (startOffset, startFullOffset) =>
    let blockIds := findIdsForShortBlocks m startOffset startFullOffset
    let blocksLeft := min (blocksIdsSynchronizingDefaultCount - blockIds.length)
      blocksSynchronizingDefaultCount
    if blocksLeft = 0 then
      .ok (some ⟨startOffset,m.blocks.length,startFullOffset,blockIds.map format.short⟩)
    else do
      let blocks ← fillEntries env m format timestamp (getBlocks m startFullOffset blocksLeft)
      .ok (some ⟨startOffset,m.blocks.length,startFullOffset,
        blockIds.map format.short ++ blocks⟩)

structure BlockFullInfo where
  blockId : Hash
  block : Bytes
  txs : List Bytes

def fullFormat : Format BlockFullInfo where
  short id := ⟨id,[],[]⟩
  full id b txs := ⟨id,(toBinaryArray (serializeBlock b)).2,
    txs.map fun tx => (toBinaryArray (serializeTransaction tx)).2⟩

def queryBlocks := queryEntries env m fullFormat

structure TransactionPrefixInfo where
  txHash : Hash
  txPrefix : TransactionPrefix

structure BlockShortInfo where
  blockId : Hash
  block : Bytes
  txPrefixes : List TransactionPrefixInfo

def liteFormat : Format BlockShortInfo where
  short id := ⟨id,[],[]⟩
  full id b txs := ⟨id,(toBinaryArray (serializeBlock b)).2,
    txs.map fun tx => ⟨env.getObjectHash tx,tx.toTransactionPrefix⟩⟩

def queryBlocksLite := queryEntries env m (liteFormat env)

end Query

section Transactions

variable {env : Env} {U : Set Transaction} {m : MainChain}

theorem lookup_enterAll {txs : List Transaction} {t : Tables} (h : AdmissibleAll env hgt k txs t)
    : (∀ hash ∈ t.transactionMap, (enterAll env hgt k txs t).transactionMap.lookup hash =
      t.transactionMap.lookup hash) ∧
    ∀ j tx, txs[j]? = some tx → (enterAll env hgt k txs t).transactionMap.lookup
      (env.getObjectHash tx) = some (position hgt (k + j)) := by
  induction txs generalizing k t with
  | nil => exact ⟨fun _ _ => rfl,fun j tx hj => by simp at hj⟩
  | cons first _ ih =>
    obtain ⟨hold,hnew⟩ := ih h.2
    have hmap : (enter env hgt k first t).transactionMap =
        t.transactionMap.insert (env.getObjectHash first) (position hgt k) :=
      applyTransaction_transactionMap _
    refine ⟨?_,?_⟩
    · intro hash hh
      have hne : hash ≠ env.getObjectHash first := fun heq => h.1.fresh (heq ▸ hh)
      rw [enterAll, hold hash (by rw [hmap, Finmap.mem_insert]; exact .inr hh), hmap,
        Finmap.lookup_insert_of_ne _ hne]
    · intro j tx hj
      rw [enterAll]
      cases j with
      | zero =>
        cases hj
        rw [hold _ (by rw [hmap, Finmap.mem_insert]; exact .inl rfl), hmap,
          Finmap.lookup_insert, Nat.add_zero]
      | succ j =>
        rw [hnew j tx hj, Nat.add_right_comm, Nat.add_assoc]

theorem lookup_of_built (hU : TxInj env U) (h : Built env U P ck m) {e : TransactionEntry}
    (hblk : m.blocks[hgt]? = some blk) (hent : blk.transactions[k]? = some e) :
    m.tables.transactionMap.lookup (env.getObjectHash e.tx) = some (position hgt k) := by
  induction h generalizing hgt blk with
  | empty => simp [MainChain.empty] at hblk
  | @push m _ b txs df em lower _ _ offered acceptance ih =>
    have hadm := admissible_filled hU (lower.sound hU) offered acceptance.header acceptance.short
      acceptance.inputs
    obtain ⟨hold,hnew⟩ := lookup_enterAll hadm
    change (enterAll env m.blocks.length 0 (b.baseTransaction :: txs)
      m.tables).transactionMap.lookup _ = _
    rw [accepted_blocks, List.getElem?_append] at hblk
    split_ifs at hblk with hlt
    · have hbef := ih hblk hent
      rw [hold, hbef]
      exact Finmap.mem_of_lookup_eq_some hbef
    · have hl := List.mem_singleton.mp (List.mem_of_getElem? hblk)
      have hht : hgt = m.blocks.length := by
        have hix := (List.getElem?_eq_some_iff.mp hblk).1
        rw [List.length_singleton] at hix
        omega
      have htx := congrArg (fun l : List Transaction => l[k]?)
        (acceptedEntry_transactions env m b txs df em)
      rw [← hl, List.getElem?_map, hent] at htx
      rw [hnew k e.tx htx.symm, hht, Nat.zero_add]

theorem hashes_of_built (h : Built env U P ck m) : ∀ blk ∈ m.blocks, blk.bl.transactionHashes =
        (blk.transactions.tail.map TransactionEntry.tx).map env.getObjectHash ∧
      blk.transactions.length ≤ 2 ^ 16 := by
  refine h.entries ?_
  intro m now b txs df em allowed offered acceptance
  have htxs := acceptedEntry_transactions env m b txs df em
  have hlen := congrArg List.length htxs
  have hcnt := offered.count
  rw [List.length_map, List.length_cons] at hlen
  rw [List.map_tail, htxs, List.tail_cons, acceptedEntry_bl]
  exact ⟨offered.hashes,by omega⟩

theorem getTransactions_places (hblk : m.blocks[hgt]? = some blk)
    (hcnt : blk.transactions.length ≤ 2 ^ 16) {es : List TransactionEntry}
    (hen : blk.transactions.drop k = es) (hmap : ∀ i e, blk.transactions[i]? = some e →
      m.tables.transactionMap.lookup (env.getObjectHash e.tx) = some (position hgt i)) :
    getTransactions m ((es.map TransactionEntry.tx).map env.getObjectHash) =
      .ok (es.map TransactionEntry.tx) := by
  induction es generalizing k with
  | nil => rfl
  | cons first rest ih =>
    have hfst : blk.transactions[k]? = some first := by
      rw [← List.head?_drop, hen, List.head?_cons]
    have hk : k < 2 ^ 16 := lt_of_lt_of_le (List.getElem?_eq_some_iff.mp hfst).1 hcnt
    have hr : blk.transactions.drop (k + 1) = rest := by
      rw [← List.drop_drop, hen, List.drop_one, List.tail_cons]
    have hpl : transactionByIndex m.blocks (position hgt k) = .ok first := by
      have hn : (position hgt k).transaction.toNat = k := UInt16.toNat_ofNat_of_lt' hk
      unfold transactionByIndex
      rw [hn]
      change (match m.blocks[hgt]? with
        | none => _
        | some _ => _) = _
      rw [hblk]
      simp only [hfst]
    rw [List.map_cons, List.map_cons, getTransactions, hmap k first hfst]
    simp only [hpl, ih hr]
    rfl

theorem getTransactions_of_built (hU : TxInj env U) (h : Built env U P ck m)
    (hblk : blk ∈ m.blocks) : getTransactions m blk.bl.transactionHashes =
      .ok (blk.transactions.tail.map TransactionEntry.tx) := by
  obtain ⟨_,hht⟩ := List.mem_iff_getElem?.mp hblk
  obtain ⟨hhsh,hcnt⟩ := hashes_of_built h blk hblk
  rw [hhsh]
  exact getTransactions_places hht hcnt (List.drop_one ..)
    fun i e hent => lookup_of_built hU h hht hent

end Transactions

variable {known : List Hash} {gen : Hash}

section Sent

variable {env : Env} {m : MainChain} {timestamp : UInt64} {start : ℕ}

variable (env m timestamp start) in
def fullOffset : ℕ := (getLowerBound env m timestamp start).getD start

def shortCount (start full : ℕ) : ℕ := min blocksIdsSynchronizingDefaultCount (full - start)

def fullCount (start full : ℕ) : ℕ :=
  min (blocksIdsSynchronizingDefaultCount - shortCount start full)
    blocksSynchronizingDefaultCount

theorem fullOffset_range (hst : start < m.blocks.length) :
    start ≤ fullOffset env m timestamp start ∧
      fullOffset env m timestamp start < m.blocks.length := by
  have hrg := lowerBound_range (isEarlier env m timestamp) start (m.blocks.length - start)
  unfold fullOffset getLowerBound
  dsimp only
  split_ifs with hend
  · exact ⟨le_rfl,hst⟩
  · rw [Option.getD_some]
    omega

theorem lt_fullOffset_iff (hst : start < m.blocks.length) (hht : start ≤ hgt) :
    hgt < fullOffset env m timestamp start ↔
      (∃ p, Compared (isEarlier env m timestamp) start (m.blocks.length - start) p ∧
        isEarlier env m timestamp p = false) ∧
      ∃ p, Compared (isEarlier env m timestamp) start (m.blocks.length - start) p ∧
        isEarlier env m timestamp p = true ∧ hgt ≤ p := by
  have hend := lowerBound_eq_end_iff (isEarlier env m timestamp) start (m.blocks.length - start)
  have hlen : start + (m.blocks.length - start) = m.blocks.length := by omega
  rw [hlen] at hend
  unfold fullOffset getLowerBound
  dsimp only
  split_ifs with hr
  · refine iff_of_false (not_lt.mpr hht) ?_
    rintro ⟨⟨p,hp,hlat⟩,-⟩
    rw [hend.mp hr p hp] at hlat
    cases hlat
  · rw [Option.getD_some, lt_lowerBound_iff hht]
    refine (and_iff_right ?_).symm
    by_contra hn
    apply hr
    apply hend.mpr
    intro p hp
    by_contra hlat
    exact hn ⟨p,hp,by simpa using hlat⟩

variable {format : Format α} {U : Set Transaction}

variable (env timestamp format) in
def sent (block : BlockEntry) : α :=
  if timestamp ≤ block.bl.timestamp then
    format.full (env.getBlockHash block.bl) block.bl
      (block.transactions.tail.map TransactionEntry.tx)
  else format.short (env.getBlockHash block.bl)

variable (env m timestamp start format) in
def answered : List α :=
  ((m.blockIndex.drop start).take (shortCount start
      (fullOffset env m timestamp start))).map format.short ++
    ((m.blocks.drop (fullOffset env m timestamp start)).take (fullCount start
      (fullOffset env m timestamp start))).map (sent env timestamp format)

theorem fillEntries_built (hU : TxInj env U) (h : Built env U P ck m) {bs : List BlockEntry}
    (hb : ∀ e ∈ bs, e ∈ m.blocks) : fillEntries env m format timestamp (bs.map BlockEntry.bl) =
      .ok (bs.map (sent env timestamp format)) := by
  induction bs with
  | nil => rfl
  | cons _ _ ih =>
    obtain ⟨hfst,hr⟩ := List.forall_mem_cons.mp hb
    rw [List.map_cons, fillEntries, ih hr, getTransactions_of_built hU h hfst, List.map_cons, sent]
    split_ifs <;> rfl

theorem findSupplement_built (hU : TxInj env U) (h : Built env U P ck m)
    (hl : known.getLast? = some gen) (hgen : m.blockIndex[0]? = some gen) :
    ∃ start, findSupplement m known = some start ∧ start < m.blocks.length := by
  have hlen : m.blockIndex.length = m.blocks.length := by
    rw [(h.sound hU).index, List.length_map]
  have hfd : (findSupplement m known).isSome := by
    rw [findSupplement, List.findSome?_isSome_iff]
    refine ⟨gen,List.mem_of_getLast? hl,?_⟩
    rw [List.isSome_idxOf?]
    exact List.mem_of_getElem? hgen
  obtain ⟨start,hst⟩ := Option.isSome_iff_exists.mp hfd
  refine ⟨start,hst,?_⟩
  obtain ⟨_,-,hid⟩ := List.exists_of_findSome?_eq_some hst
  obtain ⟨_,-⟩ := List.idxOf?_eq_some_iff.mp hid
  omega

theorem queryEntries_built (hU : TxInj env U) (h : Built env U P ck m)
    (hl : known.getLast? = some gen)
    (hgen : m.blockIndex[0]? = some gen) (hst : findSupplement m known = some start) :
    queryEntries env m format known timestamp = .ok (some
      { startHeight := start, currentHeight := m.blocks.length,
        fullOffset := fullOffset env m timestamp start,
        entries := answered env m timestamp start format }) := by
  have hst' : start < m.blocks.length := by
    obtain ⟨_,hoth,_⟩ := findSupplement_built hU h hl hgen
    rw [hst, Option.some.injEq] at hoth
    omega
  have hrg : start ≤ fullOffset env m timestamp start ∧
      fullOffset env m timestamp start < m.blocks.length := fullOffset_range hst'
  have hlen : m.blockIndex.length = m.blocks.length := by
    rw [(h.sound hU).index, List.length_map]
  have ho : findStartAndFullOffsets env m known timestamp =
      .ok (some (start, fullOffset env m timestamp start)) := by
    unfold findStartAndFullOffsets
    simp only [hl, hgen, hst, ne_eq, not_true_eq_false, if_false]
    rfl
  have hids : findIdsForShortBlocks m start (fullOffset env m timestamp start) =
      (m.blockIndex.drop start).take (shortCount start (fullOffset env m timestamp start)) := by
    unfold findIdsForShortBlocks shortCount getBlockIds
    split_ifs with hsh
    · rfl
    · rw [Nat.sub_eq_zero_of_le (not_lt.mp hsh), Nat.min_zero, List.take_zero]
  have hcnt : ((m.blockIndex.drop start).take
      (shortCount start (fullOffset env m timestamp start))).length =
        shortCount start (fullOffset env m timestamp start) := by
    rw [List.length_take, List.length_drop, hlen]
    unfold shortCount
    omega
  have hb : fillEntries env m format timestamp (getBlocks m (fullOffset env m timestamp start)
        (fullCount start (fullOffset env m timestamp start))) =
      .ok (((m.blocks.drop (fullOffset env m timestamp start)).take (fullCount start
        (fullOffset env m timestamp start))).map (sent env timestamp format)) :=
    fillEntries_built hU h fun e he => List.mem_of_mem_drop (List.mem_of_mem_take he)
  have hle : min (blocksIdsSynchronizingDefaultCount -
      shortCount start (fullOffset env m timestamp start)) blocksSynchronizingDefaultCount =
        fullCount start (fullOffset env m timestamp start) := rfl
  unfold queryEntries
  rw [ho]
  simp only [bind, Except.bind, hids, hcnt, hle, hb]
  split_ifs with hz
  · rw [answered, hz, List.take_zero, List.map_nil, List.append_nil]
  · rfl

end Sent

section Complete

variable {env : Env} {m : MainChain} {timestamp : UInt64} {start : ℕ}

structure Complete (m : MainChain) (timestamp : UInt64) (blockId : α → Hash)
    (Carries : α → Block → List Transaction → Prop) (answer : Answer α) : Prop where
  ids : answer.entries.map blockId =
    (m.blockIndex.drop answer.startHeight).take answer.entries.length
  count : answer.entries.length ≤ blocksIdsSynchronizingDefaultCount
  full : ∀ (i : ℕ) (entry : α) (block : BlockEntry), answer.entries[i]? = some entry →
    m.blocks[answer.startHeight + i]? = some block → timestamp ≤ block.bl.timestamp →
    Carries entry block.bl (block.transactions.tail.map TransactionEntry.tx)

/-- Every block that the search compares is earlier than the time it looks for,
or none of the earlier ones it compares lies at or above a block since the
given time among the first ones of the answer. -/
def Orderly (env : Env) (m : MainChain) (timestamp : UInt64) (start : ℕ) : Prop :=
  (∀ p, Compared (isEarlier env m timestamp) start (m.blocks.length - start) p →
    isEarlier env m timestamp p = true) ∨
  ∀ (height : ℕ) (block : BlockEntry), start ≤ height →
    height < start + blocksIdsSynchronizingDefaultCount → m.blocks[height]? = some block →
    timestamp ≤ block.bl.timestamp →
    ∀ p, Compared (isEarlier env m timestamp) start (m.blocks.length - start) p →
      isEarlier env m timestamp p = true → p < height

theorem orderly_iff (hst : start < m.blocks.length) : Orderly env m timestamp start ↔
      ∀ (hgt : ℕ) (blk : BlockEntry), start ≤ hgt →
        hgt < start + blocksIdsSynchronizingDefaultCount → m.blocks[hgt]? = some blk →
        timestamp ≤ blk.bl.timestamp → fullOffset env m timestamp start ≤ hgt := by
  constructor
  · intro h hgt blk hge hlt hblk ht
    apply not_lt.mp
    intro hbel
    obtain ⟨⟨q,hq,hlat⟩,p,hp,hear,hle⟩ := (lt_fullOffset_iff hst hge).mp hbel
    rcases h with hall | hn
    · rw [hall q hq] at hlat
      cases hlat
    · have := hn hgt blk hge hlt hblk ht p hp hear
      omega
  · intro h
    by_cases hall : ∀ p, Compared (isEarlier env m timestamp) start (m.blocks.length - start) p →
        isEarlier env m timestamp p = true
    · exact .inl hall
    · refine .inr fun hgt blk hge hlt hblk ht p hp hear => ?_
      by_contra hle
      have hf := h hgt blk hge hlt hblk ht
      have hs : ∃ q, Compared (isEarlier env m timestamp) start (m.blocks.length - start) q ∧
          isEarlier env m timestamp q = false := by
        by_contra hn
        apply hall
        intro q hq
        by_contra hlat
        exact hn ⟨q,hq,by simpa using hlat⟩
      have := (lt_fullOffset_iff hst hge).mpr ⟨hs,p,hp,hear,not_lt.mp hle⟩
      omega

theorem orderly_of_ordered (h : ∀ (i j : ℕ) (lower upper : BlockEntry), start ≤ i → i ≤ j →
      m.blocks[i]? = some lower → m.blocks[j]? = some upper → timestamp ≤ lower.bl.timestamp →
      timestamp - env.currency.blockFutureTimeLimit ≤ upper.bl.timestamp) :
    Orderly env m timestamp start := by
  refine .inr fun hgt blk hge _ hblk ht p _ hear => ?_
  by_contra hle
  unfold isEarlier at hear
  cases hu : m.blocks[p]? with
  | none =>
    rw [hu] at hear
    cases hear
  | some upper =>
    rw [hu] at hear
    have hbd := h hgt p blk upper hge (not_lt.mp hle) hblk hu ht
    exact UInt64.not_lt.mpr hbd (of_decide_eq_true hear)

structure Lawful (format : Format α) (blockId : α → Hash)
    (Carries : α → Block → List Transaction → Prop) : Prop where
  short_id : ∀ id, blockId (format.short id) = id
  full_id : ∀ id b txs, blockId (format.full id b txs) = id
  full : ∀ id b txs, Carries (format.full id b txs) b txs
  short : ∀ id b txs, ¬ Carries (format.short id) b txs

variable {format : Format α} {bid : α → Hash} {Carries : α → Block → List Transaction → Prop}

theorem shortCount_cases (start full : ℕ) (h : start ≤ full) :
    fullCount start full = 0 ∨ full = start + shortCount start full := by
  unfold fullCount shortCount
  omega

theorem answered_ids (hl : Lawful format bid Carries)
    (hix : m.blockIndex = m.blocks.map fun e => env.getBlockHash e.bl)
    (hst : start < m.blocks.length) : (answered env m timestamp start format).map bid =
      (m.blockIndex.drop start).take (shortCount start (fullOffset env m timestamp start) +
        fullCount start (fullOffset env m timestamp start)) := by
  have hsh : ∀ l : List Hash, (l.map format.short).map bid = l := by
    intro l
    simp [List.map_map, Function.comp_def, hl.short_id]
  have hs : ∀ l : List BlockEntry, (l.map (sent env timestamp format)).map bid =
      l.map fun e => env.getBlockHash e.bl := by
    intro l
    rw [List.map_map]
    apply List.map_congr_left
    intro e _
    rw [Function.comp_apply, sent]
    split_ifs
    · exact hl.full_id _ _ _
    · exact hl.short_id _
  have hrg : start ≤ fullOffset env m timestamp start ∧
      fullOffset env m timestamp start < m.blocks.length := fullOffset_range hst
  rw [answered, List.map_append, hsh, hs, List.map_take, List.map_drop, ← hix]
  rcases shortCount_cases start (fullOffset env m timestamp start) hrg.1 with hz | hn
  · rw [hz, List.take_zero, List.append_nil, Nat.add_zero]
  · rw [List.take_add, List.drop_drop, ← hn]

theorem answered_get (hix : m.blockIndex = m.blocks.map fun e => env.getBlockHash e.bl)
    (hst : start < m.blocks.length) {i : ℕ} {en : α}
    (hent : (answered env m timestamp start format)[i]? = some en)
    (hblk : m.blocks[start + i]? = some blk) :
    en = if i < shortCount start (fullOffset env m timestamp start) then
      format.short (env.getBlockHash blk.bl) else sent env timestamp format blk := by
  have hrg : start ≤ fullOffset env m timestamp start ∧
      fullOffset env m timestamp start < m.blocks.length := fullOffset_range hst
  have hlen : ((m.blockIndex.drop start).take (shortCount start
      (fullOffset env m timestamp start))).length =
        shortCount start (fullOffset env m timestamp start) := by
    rw [List.length_take, List.length_drop, hix, List.length_map]
    unfold shortCount
    omega
  rw [answered, List.getElem?_append, List.length_map, hlen] at hent
  split_ifs at hent ⊢ with hsh
  · rw [List.getElem?_map, List.getElem?_take_of_lt hsh, List.getElem?_drop, hix,
      List.getElem?_map, hblk] at hent
    exact (Option.some.inj hent).symm
  · rw [List.getElem?_map] at hent
    obtain ⟨_,hoth,rfl⟩ := Option.map_eq_some_iff.mp hent
    rcases shortCount_cases start (fullOffset env m timestamp start) hrg.1 with hz | hn
    · rw [hz, List.take_zero] at hoth
      simp at hoth
    · rw [List.getElem?_take] at hoth
      split_ifs at hoth
      have hpl : fullOffset env m timestamp start +
          (i - shortCount start (fullOffset env m timestamp start)) = start + i := by omega
      rw [List.getElem?_drop, hpl, hblk] at hoth
      rw [Option.some.inj hoth]

theorem complete_iff (hl : Lawful format bid Carries)
    (hix : m.blockIndex = m.blocks.map fun e => env.getBlockHash e.bl)
    (hst : start < m.blocks.length) : Complete m timestamp bid Carries
        ⟨start,m.blocks.length,fullOffset env m timestamp start,
          answered env m timestamp start format⟩ ↔ Orderly env m timestamp start := by
  have hids : (answered env m timestamp start format).map bid = _ := answered_ids hl hix hst
  have hlen := congrArg List.length hids
  rw [List.length_map, List.length_take, List.length_drop, hix, List.length_map] at hlen
  have hrg : start ≤ fullOffset env m timestamp start ∧
      fullOffset env m timestamp start < m.blocks.length := fullOffset_range hst
  rw [orderly_iff hst]
  constructor
  · intro h hgt blk hge hlt hblk ht
    by_contra hbel
    -- the block would be sent as an id
    have hsh : hgt - start < shortCount start (fullOffset env m timestamp start) := by
      unfold shortCount
      omega
    have hs : hgt - start < (answered env m timestamp start format).length := by
      have hla := (List.getElem?_eq_some_iff.mp hblk).1
      omega
    have hent := List.getElem?_eq_getElem hs
    have hpl : m.blocks[start + (hgt - start)]? = some blk := by
      rw [Nat.add_sub_cancel' hge]
      exact hblk
    have hc := h.full _ _ blk hent hpl ht
    rw [answered_get hix hst hent hpl, if_pos hsh] at hc
    exact hl.short _ _ _ hc
  · intro h
    refine ⟨?_,?_,?_⟩
    · change (answered env m timestamp start format).map bid =
        (m.blockIndex.drop start).take (answered env m timestamp start format).length
      rw [hids, List.take_eq_take_min, hlen, List.length_drop, hix, List.length_map]
    · change (answered env m timestamp start format).length ≤ _
      rw [hlen]
      unfold fullCount shortCount
      omega
    · intro i en blk hent hblk ht
      have hpl : ¬ i < shortCount start (fullOffset env m timestamp start) := by
        intro hsh
        unfold shortCount at hsh
        have hf := h (start + i) blk (by omega) (by omega) hblk ht
        omega
      rw [answered_get hix hst hent hblk, if_neg hpl, sent, if_pos ht]
      exact hl.full _ _ _

end Complete

section Answers

variable {env : Env} {m : MainChain} {U : Set Transaction}

def FullCarries (entry : BlockFullInfo) (b : Block) (txs : List Transaction) : Prop :=
  entry.block = (toBinaryArray (serializeBlock b)).2 ∧
    entry.txs = txs.map fun tx => (toBinaryArray (serializeTransaction tx)).2

def LiteCarries (env : Env) (entry : BlockShortInfo) (b : Block) (txs : List Transaction) : Prop :=
  entry.block = (toBinaryArray (serializeBlock b)).2 ∧
    entry.txPrefixes = txs.map fun tx => ⟨env.getObjectHash tx,tx.toTransactionPrefix⟩

theorem fullFormat_lawful : Lawful fullFormat BlockFullInfo.blockId FullCarries where
  short_id _ := rfl
  full_id _ _ _ := rfl
  full _ _ _ := ⟨rfl,rfl⟩
  short _ b _ h := toBinaryArray_block_ne_nil b h.1.symm

theorem liteFormat_lawful :
    Lawful (liteFormat env) BlockShortInfo.blockId (LiteCarries env) where
  short_id _ := rfl
  full_id _ _ _ := rfl
  full _ _ _ := ⟨rfl,rfl⟩
  short _ b _ h := toBinaryArray_block_ne_nil b h.1.symm

/-- After any history of accepted and removed blocks, a query with known blocks
that end with the genesis block is answered, and the answer is complete if and
only if the search was not misled by the times of the blocks. -/
theorem query_complete_iff (hU : Set.InjOn env.getObjectHash U) (h : History env U m)
    {known : List Hash} {genesis : Hash} (hlast : known.getLast? = some genesis)
    (hgenesis : m.blockIndex[0]? = some genesis) (timestamp : UInt64) :
    ∃ start full lite, findSupplement m known = some start ∧
      queryBlocks env m known timestamp = .ok (some full) ∧
      queryBlocksLite env m known timestamp = .ok (some lite) ∧
      full.startHeight = start ∧ lite.startHeight = start ∧
      (Complete m timestamp BlockFullInfo.blockId FullCarries full ↔
        Orderly env m timestamp start) ∧
      (Complete m timestamp BlockShortInfo.blockId (LiteCarries env) lite ↔
        Orderly env m timestamp start) := by
  have hblt := h.built hU
  obtain ⟨start,hfd,hst⟩ := findSupplement_built hU hblt hlast hgenesis
  have hix := (hblt.sound hU).index
  exact ⟨start,_,_,hfd,queryEntries_built hU hblt hlast hgenesis hfd,
    queryEntries_built hU hblt hlast hgenesis hfd,rfl,rfl,
    complete_iff fullFormat_lawful hix hst,complete_iff liteFormat_lawful hix hst⟩

end Answers

def timedBlock (m : MainChain) (height : ℕ) (timestamp : UInt64) : Block :=
  blockOn (sampleNode.setMain m) (height + 1) height height timestamp

def uneven : ℕ → MainChain
  | 0 => sampleNode.main
  | k + 1 => left (pushBlock sampleEnv 20000
      (timedBlock (uneven k) (k + 1) (if k = 1 then 111 else 20000)) [] (uneven k))

def unevenTransactions : Set Transaction :=
  {x | x = sampleCoinbase ∨ ∃ k < 3, x =
    (timedBlock (uneven k) (k + 1) (if k = 1 then 111 else 20000)).baseTransaction}

theorem uneven_history (hk : k ≤ 3) : History sampleEnv unevenTransactions (uneven k) := by
  induction k with
  | zero => exact sampleNode_history (.inl rfl)
  | succ k ih =>
    have hc : ∀ j < 3, value (pushBlock sampleEnv 20000 (timedBlock (uneven j) (j + 1)
        (if j = 1 then 111 else 20000)) [] (uneven j)) = some (true, .added) := by
      decide +kernel
    refine .push (ih (by omega)) ⟨.inr ⟨k,by omega,rfl⟩,by simp,by simp,rfl,by decide⟩
      (eq_ok_of_value (hc k (by omega)))

theorem unevenTransactions_injOn : Set.InjOn sampleEnv.getObjectHash unevenTransactions := by
  have hh : ∀ k < 3, sampleEnv.getObjectHash (timedBlock (uneven k) (k + 1)
      (if k = 1 then 111 else 20000)).baseTransaction = k + 2 := by
    decide +kernel
  have hst : sampleEnv.getObjectHash sampleCoinbase = 1 := rfl
  rintro x (rfl | ⟨i,hi,rfl⟩) y (rfl | ⟨j,hj,rfl⟩) heq
  · rfl
  · have hone : 1 = j + 2 := hst.symm.trans (heq.trans (hh j hj))
    omega
  · have hone : i + 2 = 1 := (hh i hi).symm.trans (heq.trans hst)
    omega
  · have hs : i + 2 = j + 2 := (hh i hi).symm.trans (heq.trans (hh j hj))
    rw [show i = j by omega]

theorem query_complete_iff_sample : ∃ full,
    queryBlocks sampleEnv (uneven 3) [1] 7300 = .ok (some full) ∧
      Complete (uneven 3) 7300 BlockFullInfo.blockId FullCarries full := by
  obtain ⟨_,full,_,-,hf,-,-,-,hcmp,-⟩ := query_complete_iff unevenTransactions_injOn
    (uneven_history le_rfl) (show [1].getLast? = some 1 from rfl) (by decide +kernel) 7300
  refine ⟨full,hf,hcmp.mpr (orderly_of_ordered ?_)⟩
  intro i j lower upper _ hij hlow hup ht
  have hfirst : ∀ e ∈ (uneven 3).blocks.take 1, e.bl.timestamp < 7300 := by decide +kernel
  have hlater : ∀ e ∈ (uneven 3).blocks.drop 1,
      7300 - sampleEnv.currency.blockFutureTimeLimit ≤ e.bl.timestamp := by decide +kernel
  rcases Nat.eq_zero_or_pos i with rfl | hi
  · have hmem : lower ∈ (uneven 3).blocks.take 1 :=
      List.mem_of_getElem? (i := 0) (by rw [List.getElem?_take_of_lt Nat.one_pos, hlow])
    exact absurd ht (UInt64.not_le.mpr (hfirst lower hmem))
  · refine hlater upper (List.mem_of_getElem? (i := j - 1) ?_)
    rw [List.getElem?_drop, Nat.add_sub_cancel' (by omega)]
    exact hup

/-- A wallet asks for the blocks since 20000. The second block has that time,
but the search compares the third one first, takes everything up to it for
older, and the wallet gets the id of the second block only. -/
theorem recent_block_sent_as_id : History sampleEnv unevenTransactions (uneven 3) ∧
    (uneven 3).blocks.map (fun e => e.bl.timestamp) = [0, 20000, 111, 20000] ∧
    ((queryBlocks sampleEnv (uneven 3) [1] 20000).toOption.join.map fun answer =>
      (answer.startHeight, answer.entries.map fun e => (e.blockId, e.block.isEmpty))) =
        some (0, [(1, true), (2, true), (3, true), (4, false)]) ∧
    ((queryBlocksLite sampleEnv (uneven 3) [1] 20000).toOption.join.map fun answer =>
      (answer.startHeight, answer.entries.map fun e => (e.blockId, e.block.isEmpty))) =
        some (0, [(1, true), (2, true), (3, true), (4, false)]) := by
  refine ⟨uneven_history le_rfl,?_⟩
  decide +kernel

end Orbis.ChainQuery
