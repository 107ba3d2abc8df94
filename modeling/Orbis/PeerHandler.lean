import Mathlib.Data.Finset.Basic
import Mathlib.Data.Finset.Union
import Mathlib.Order.Lattice
import Orbis.ChainBinary

/-!
# Connections to peers

A node keeps one context for every connection. The peer's messages drive it:
they report the height of the peer's chain, start a synchronisation, name
blocks to fetch and deliver them. The node also remembers the greatest height
it has heard of. Each connection is served by its own context of execution,
which gives way to the others only while it waits for a message, pings back
after a handshake or is between two blocks of a delivery. What the core
answers is arbitrary.
-/

set_option autoImplicit false

namespace Orbis.PeerHandler

open ByteCodec ChainTypes ChainBinary

instance linearOrderUInt32 : LinearOrder UInt32 where
  le_refl := UInt32.le_refl
  le_trans := fun _ _ _ => UInt32.le_trans
  lt_iff_le_not_ge := fun _ _ =>
    ⟨fun h => ⟨UInt32.le_of_lt h,UInt32.not_le.mpr h⟩,fun h => UInt32.not_le.mp h.2⟩
  le_antisymm := fun _ _ => UInt32.le_antisymm
  le_total := UInt32.le_total
  toDecidableLE := inferInstance
  toDecidableEq := inferInstance
  toDecidableLT := inferInstance
  max_def := fun _ _ => rfl
  min_def := fun _ _ => rfl
  compare_eq_compareOfLessAndEq := fun _ _ => rfl

abbrev ConnectionId := ℕ

abbrev PeerId := UInt64

inductive ConnectionState where
  | beforeHandshake
  | synchronizing
  | idle
  | normal
  | syncRequired
  | poolSyncRequired
  | shutdown
  deriving DecidableEq

structure ConnectionContext where
  version : UInt8
  connectionId : ConnectionId
  isIncome : Bool
  peerId : PeerId
  state : ConnectionState
  neededObjects : List Hash
  requestedObjects : Finset Hash
  remoteBlockchainHeight : UInt32
  lastResponseHeight : UInt32
  deriving DecidableEq

def ConnectionContext.opened (connectionId : ConnectionId) (isIncome : Bool) :
    ConnectionContext where
  version := 0
  connectionId := connectionId
  isIncome := isIncome
  peerId := 0
  state := .beforeHandshake
  neededObjects := []
  requestedObjects := ∅
  remoteBlockchainHeight := 0
  lastResponseHeight := 0

def ConnectionContext.drop (c : ConnectionContext) : ConnectionContext :=
  { c with state := .shutdown }

def ConnectionContext.suspend (c : ConnectionContext) : ConnectionContext :=
  { c with state := .idle, neededObjects := [], requestedObjects := ∅ }

structure CoreSyncData where
  currentHeight : UInt32
  topId : Hash

structure BlockCompleteEntry where
  block : Bytes
  txs : List Bytes
  deriving DecidableEq

structure BlockVerificationContext where
  addedToMainChain : Bool
  verificationFailed : Bool
  markedAsOrphaned : Bool
  alreadyExists : Bool
  switchedToAltChain : Bool

/-- What the core answers while one message, or one block of a delivery, is
handled: `verificationFailed i` is the answer to the transaction at `i`. -/
structure Core where
  haveBlock : Hash → Bool
  topHeight : UInt32
  genesisId : Hash
  sparseChain : List Hash
  poolTransactions : List Hash
  verificationFailed : ℕ → Bool
  handleIncomingBlock : BlockVerificationContext
  handleGetObjects : Bool

inductive Post where
  | requestChain (blockIds : List Hash)
  | requestGetObjects (blocks : List Hash)
  | requestTxPool (txs : List Hash)
  deriving DecidableEq

inductive Task where
  /-- A command was handled, or the connection has just been opened. -/
  | settling
  | reading
  /-- Between two blocks of `processObjects`. -/
  | processing (blocks : List BlockCompleteEntry)
  | closing
  deriving DecidableEq

structure Connection where
  context : ConnectionContext
  task : Task
  deriving DecidableEq

/-- `connections` are those of the node server. An outgoing connection is
`pending` from its handshake until the server has entered it. -/
structure Handler where
  observedHeight : UInt32
  peersCount : UInt64
  synchronized : Bool
  stop : Bool
  connections : List Connection
  pending : List ConnectionContext
  posted : List (ConnectionId × Post)

def Handler.initial : Handler where
  observedHeight := 0
  peersCount := 0
  synchronized := false
  stop := false
  connections := []
  pending := []
  posted := []

section Heights

variable (core : Core) (h : Handler) (context : ConnectionContext)

def othersHeight (connections : List Connection) : UInt32 :=
  connections.foldl
    (fun peerHeight c =>
      if c.context.connectionId ≠ context.connectionId then
        max peerHeight c.context.remoteBlockchainHeight
      else peerHeight)
    0

def recalculateMaxObservedHeight : UInt32 :=
  max (othersHeight context h.connections) (core.topHeight + 1)

def updateObservedHeight (peerHeight : UInt32) : UInt32 :=
  if context.remoteBlockchainHeight < peerHeight then max h.observedHeight peerHeight
  else if peerHeight ≠ context.remoteBlockchainHeight ∧
      context.remoteBlockchainHeight = h.observedHeight then
    recalculateMaxObservedHeight core h context
  else h.observedHeight

/-- Every handler that learns the peer's height stores it this way, but one. -/
def report (peerHeight : UInt32) : Handler × ConnectionContext :=
  ({ h with observedHeight := updateObservedHeight core h context peerHeight },
    { context with remoteBlockchainHeight := peerHeight })

end Heights

section Handlers

def blocksSynchronizingDefaultCount : ℕ := 200

variable (core : Core)

def onConnectionSynchronized (h : Handler) : Handler := { h with synchronized := true }

def requestMissingPoolTransactions (c : ConnectionContext) : List Post :=
  if c.version < 1 then [] else [.requestTxPool core.poolTransactions]

def processPayloadSyncData (h : Handler) (hshd : CoreSyncData) (c : ConnectionContext)
    (isInitial : Bool) : Handler × ConnectionContext :=
  if c.state = .beforeHandshake ∧ isInitial = false then (h, c)
  else
    let r :=
      if c.state = .synchronizing then (h, c)
      else if core.haveBlock hshd.topId then
        if isInitial then (onConnectionSynchronized h, { c with state := .poolSyncRequired })
        else (h, { c with state := .normal })
      else (h, { c with state := .syncRequired })
    let r := report core r.1 r.2 hshd.currentHeight
    (if isInitial then { r.1 with peersCount := r.1.peersCount + 1 } else r.1, r.2)

/-- The next ids to ask for, and those left. A block that the node has by now
is passed over. -/
def takeNeeded (checkHavingBlocks : Bool) : ℕ → List Hash → List Hash × List Hash
  | _, [] => ([], [])
  | 0, needed => ([], needed)
  | room + 1, id :: needed =>
    if checkHavingBlocks && core.haveBlock id then takeNeeded checkHavingBlocks (room + 1) needed
    else
      let r := takeNeeded checkHavingBlocks room needed
      (id :: r.1, r.2)

/-- What a handler leaves: the result says whether the final condition of
`request_missing_objects` held. -/
structure Missing where
  handler : Handler
  context : ConnectionContext
  posts : List Post
  result : Bool

def requestMissingObjects (h : Handler) (c : ConnectionContext) (checkHavingBlocks : Bool) :
    Missing :=
  if c.neededObjects ≠ [] then
    let r := takeNeeded core checkHavingBlocks blocksSynchronizingDefaultCount c.neededObjects
    { handler := h
      context :=
        { c with
          neededObjects := r.2
          requestedObjects := c.requestedObjects ∪ r.1.toFinset }
      posts := [.requestGetObjects r.1]
      result := true }
  else if c.lastResponseHeight < c.remoteBlockchainHeight - 1 then
    ⟨h,c,[.requestChain core.sparseChain],true⟩
  else if c.lastResponseHeight = c.remoteBlockchainHeight - 1 ∧ c.requestedObjects = ∅ then
    ⟨onConnectionSynchronized h,{ c with state := .normal },requestMissingPoolTransactions core c,
      true⟩
  else ⟨h,c,[],false⟩

def startSync (c : ConnectionContext) : List Post :=
  if c.state = .synchronizing then [.requestChain core.sparseChain] else []

structure Outcome where
  handler : Handler
  context : ConnectionContext
  posts : List Post
  task : Task

def Outcome.done (h : Handler) (c : ConnectionContext) : Outcome := ⟨h,c,[],.settling⟩

def Missing.outcome (m : Missing) : Outcome := ⟨m.handler,m.context,m.posts,.settling⟩

def handleNotifyNewBlock (h : Handler) (entry : BlockCompleteEntry) (currentHeight : UInt32)
    (c : ConnectionContext) : Outcome :=
  let r := report core h c currentHeight
  let h := r.1
  let c := r.2
  let bvc := core.handleIncomingBlock
  if c.state ≠ .normal then .done h c
  else if (List.range entry.txs.length).any core.verificationFailed then .done h c.drop
  else if bvc.verificationFailed then .done h c.drop
  else if bvc.addedToMainChain then
    ⟨h,c,if bvc.switchedToAltChain then requestMissingPoolTransactions core c else [],.settling⟩
  else if bvc.markedAsOrphaned then
    ⟨h,{ c with state := .synchronizing },[.requestChain core.sparseChain],.settling⟩
  else .done h c

/-- The response itself is not shown here: a failed one closes the connection. -/
def handleRequestGetObjects (h : Handler) (c : ConnectionContext) : Outcome :=
  .done h (if core.handleGetObjects then c else c.drop)

def handleRequestChain (h : Handler) (blockIds : List Hash) (c : ConnectionContext) : Outcome :=
  match blockIds.getLast? with
  | none => .done h c.drop
  | some id => .done h (if id ≠ core.genesisId then c.drop else c)

def recordChainEntry (startHeight totalHeight : UInt32) (blockIds : List Hash)
    (c : ConnectionContext) : ConnectionContext :=
  let c :=
    { c with
      remoteBlockchainHeight := totalHeight
      lastResponseHeight := startHeight + UInt32.ofNat blockIds.length - 1 }
  let c := if c.remoteBlockchainHeight < c.lastResponseHeight then c.drop else c
  { c with neededObjects := c.neededObjects ++ blockIds.filter fun id => !core.haveBlock id }

def handleResponseChainEntry (h : Handler) (startHeight totalHeight : UInt32)
    (blockIds : List Hash) (c : ConnectionContext) : Outcome :=
  match blockIds with
  | [] => .done h c.drop
  | id :: _ =>
    if core.haveBlock id = false then .done h c.drop
    else
      (requestMissingObjects core h (recordChainEntry core startHeight totalHeight blockIds c)
        false).outcome

end Handlers

section Deliveries

variable (getBlockHash : Block → Hash) (core : Core)

/-- The blocks must be among those requested. `true` if all of them were. -/
def receiveBlocks : ℕ → List BlockCompleteEntry → ConnectionContext → Bool × ConnectionContext
  | _, [], c => (true, c)
  | count, entry :: entries, c =>
    match fromBinaryArray readBlock entry.block with
    | none => (false, c.drop)
    | some b =>
      if count + 1 = 2 ∧ core.haveBlock (getBlockHash b) then (false, c.suspend)
      else if getBlockHash b ∉ c.requestedObjects then (false, c.drop)
      else if b.transactionHashes.length ≠ entry.txs.length then (false, c.drop)
      else
        receiveBlocks (count + 1) entries
          { c with requestedObjects := c.requestedObjects.erase (getBlockHash b) }

def handleResponseGetObjects (h : Handler) (currentHeight : UInt32)
    (blocks : List BlockCompleteEntry) (c : ConnectionContext) : Outcome :=
  if currentHeight < c.lastResponseHeight then .done h c.drop
  else
    let r := report core h c currentHeight
    match receiveBlocks getBlockHash core 0 blocks r.2 with
    | (false, c) => .done r.1 c
    | (true, c) =>
      if c.requestedObjects ≠ ∅ then .done r.1 c.drop
      else ⟨r.1,c,[],.processing blocks⟩

/-- One round of the loop of `processObjects`, or what follows the loop. -/
def processObjects (h : Handler) (blocks : List BlockCompleteEntry) (c : ConnectionContext) :
    Outcome :=
  match blocks with
  | [] =>
    if h.stop = false ∧ c.state = .synchronizing then (requestMissingObjects core h c true).outcome
    else .done h c
  | entry :: entries =>
    let bvc := core.handleIncomingBlock
    if h.stop then ⟨h,c,[],.processing []⟩
    else if (List.range entry.txs.length).any core.verificationFailed then .done h c.drop
    else if bvc.verificationFailed then .done h c.drop
    else if bvc.markedAsOrphaned then .done h c.drop
    else if bvc.alreadyExists then .done h c.suspend
    else ⟨h,c,[],.processing entries⟩

end Deliveries

section Server

inductive Command where
  | handshake (version : UInt8) (sameNetwork : Bool) (peerId : PeerId) (payload : CoreSyncData)
  /-- As a request. -/
  | timedSync (payload : CoreSyncData)
  /-- As a response, which also brings a list of peers. -/
  | timedSyncResponse (peerlistAccepted : Bool) (payload : CoreSyncData)
  | newBlock (entry : BlockCompleteEntry) (currentHeight : UInt32)
  | requestGetObjects
  | responseGetObjects (currentHeight : UInt32) (blocks : List BlockCompleteEntry)
  | requestChain (blockIds : List Hash)
  | responseChainEntry (startHeight totalHeight : UInt32) (blockIds : List Hash)
  /-- A ping, new transactions or a request for the pool: the context stays. -/
  | other

variable (getBlockHash : Block → Hash) (core : Core)

def handleHandshake (h : Handler) (version : UInt8) (sameNetwork : Bool) (peerId : PeerId)
    (payload : CoreSyncData) (c : ConnectionContext) : Outcome :=
  let c := { c with version := version }
  if sameNetwork = false then .done h c.drop
  else if c.isIncome = false then .done h c.drop
  else if c.peerId ≠ 0 then .done h c.drop
  else
    let r := processPayloadSyncData core h payload c true
    .done r.1 { r.2 with peerId := peerId }

def handleCommand (h : Handler) (c : ConnectionContext) : Command → Outcome
  | .handshake version sameNetwork peerId payload =>
    handleHandshake core h version sameNetwork peerId payload c
  | .timedSync payload =>
    let r := processPayloadSyncData core h payload c false
    .done r.1 r.2
  | .timedSyncResponse peerlistAccepted payload =>
    if peerlistAccepted = false then .done h c.drop
    else
      let r := processPayloadSyncData core h payload c false
      .done r.1 r.2
  | .newBlock entry currentHeight => handleNotifyNewBlock core h entry currentHeight c
  | .requestGetObjects => handleRequestGetObjects core h c
  | .responseGetObjects currentHeight blocks =>
    handleResponseGetObjects getBlockHash core h currentHeight blocks c
  | .requestChain blockIds => handleRequestChain core h blockIds c
  | .responseChainEntry startHeight totalHeight blockIds =>
    handleResponseChainEntry core h startHeight totalHeight blockIds c
  | .other => .done h c

def settle (h : Handler) (c : ConnectionContext) : Outcome :=
  match c.state with
  | .shutdown => ⟨h,c,[],.closing⟩
  | .syncRequired =>
    let c := { c with state := .synchronizing }
    ⟨h,c,startSync core c,.reading⟩
  | .poolSyncRequired =>
    ⟨h,{ c with state := .normal },requestMissingPoolTransactions core c,.reading⟩
  | _ => ⟨h,c,[],.reading⟩

/-- What can happen next. An event that is not possible has no effect. -/
inductive Event where
  | accept (id : ConnectionId)
  /-- The handshake of an outgoing connection. -/
  | connect (core : Core) (id : ConnectionId) (version : UInt8) (peerId : PeerId)
    (payload : CoreSyncData)
  | register (id : ConnectionId)
  | abandon (id : ConnectionId)
  | command (core : Core) (id : ConnectionId) (command : Command)
  | process (core : Core) (id : ConnectionId)
  | settle (core : Core) (id : ConnectionId)
  | close (core : Core) (id : ConnectionId)
  | stop

def Handler.find (h : Handler) (id : ConnectionId) : Option Connection :=
  h.connections.find? fun c => decide (c.context.connectionId = id)

def Handler.waiting (h : Handler) (id : ConnectionId) : Option ConnectionContext :=
  h.pending.find? fun c => decide (c.connectionId = id)

def Handler.known (h : Handler) (id : ConnectionId) : Bool :=
  (h.find id).isSome || (h.waiting id).isSome

def Outcome.store (o : Outcome) (id : ConnectionId) : Handler :=
  { o.handler with
    connections := o.handler.connections.map fun c =>
      if c.context.connectionId = id then ⟨o.context,o.task⟩ else c
    posted := o.handler.posted ++ o.posts.map fun post => (id, post) }

def onConnectionClosed (h : Handler) (c : ConnectionContext) : Handler :=
  { h with
    observedHeight := recalculateMaxObservedHeight core h c
    peersCount := if c.state ≠ .beforeHandshake then h.peersCount - 1 else h.peersCount }

def Handler.remove (h : Handler) (id : ConnectionId) : Handler :=
  { h with connections := h.connections.filter fun c => decide (c.context.connectionId ≠ id) }

def Handler.forget (h : Handler) (id : ConnectionId) : Handler :=
  { h with pending := h.pending.filter fun c => decide (c.connectionId ≠ id) }

def Handler.enter (h : Handler) (c : ConnectionContext) : Handler :=
  { h with connections := h.connections ++ [⟨c,.settling⟩] }

def step (h : Handler) : Event → Handler
  | .accept id => if h.known id then h else h.enter (.opened id true)
  | .connect core id version peerId payload =>
    if h.known id then h
    else
      let c := { ConnectionContext.opened id false with version := version }
      let r := processPayloadSyncData core h payload c true
      { r.1 with pending := r.1.pending ++ [{ r.2 with peerId := peerId }] }
  | .register id =>
    match h.waiting id with
    | none => h
    | some c => (h.forget id).enter c
  | .abandon id => h.forget id
  | .command core id command =>
    match h.find id with
    | some ⟨c,.reading⟩ => (handleCommand getBlockHash core h c command).store id
    | _ => h
  | .process core id =>
    match h.find id with
    | some ⟨c,.processing blocks⟩ => (processObjects core h blocks c).store id
    | _ => h
  | .settle core id =>
    match h.find id with
    | some ⟨c,.settling⟩ => (PeerHandler.settle core h c).store id
    | _ => h
  | .close core id =>
    match h.find id with
    | none => h
    | some c => (onConnectionClosed core h c.context).remove id
  | .stop => { h with stop := true }

def run : List Event → Handler → Handler
  | [], h => h
  | e :: es, h => run es (step getBlockHash h e)

end Server

section Frames

variable (getBlockHash : Block → Hash) (core : Core) (h : Handler) (c : ConnectionContext)

structure Outcome.Frames (o : Outcome) (h : Handler) (c : ConnectionContext) : Prop where
  connections : o.handler.connections = h.connections
  pending : o.handler.pending = h.pending
  connectionId : o.context.connectionId = c.connectionId

structure Outcome.Level (o : Outcome) (h : Handler) (c : ConnectionContext) : Prop
    extends o.Frames h c where
  observedHeight : o.handler.observedHeight = h.observedHeight
  remoteHeight : o.context.remoteBlockchainHeight = c.remoteBlockchainHeight

theorem requestMissingObjects_level (chb : Bool) :
    (requestMissingObjects core h c chb).outcome.Level h c := by
  unfold requestMissingObjects
  split_ifs <;> exact ⟨⟨rfl,rfl,rfl⟩,rfl,rfl⟩

theorem processObjects_level (bs : List BlockCompleteEntry) :
    (processObjects core h bs c).Level h c := by
  cases bs with
  | nil =>
    simp only [processObjects]
    split_ifs
    · exact requestMissingObjects_level core h c true
    · exact ⟨⟨rfl,rfl,rfl⟩,rfl,rfl⟩
  | cons _ _ =>
    simp only [processObjects]
    split_ifs <;> exact ⟨⟨rfl,rfl,rfl⟩,rfl,rfl⟩

theorem settle_level : (settle core h c).Level h c := by
  unfold settle
  split <;> exact ⟨⟨rfl,rfl,rfl⟩,rfl,rfl⟩

theorem receiveBlocks_frame (cnt : ℕ) (es : List BlockCompleteEntry) :
    (receiveBlocks getBlockHash core cnt es c).2.connectionId = c.connectionId ∧
      (receiveBlocks getBlockHash core cnt es c).2.remoteBlockchainHeight =
        c.remoteBlockchainHeight := by
  induction es generalizing cnt c with
  | nil => exact ⟨rfl,rfl⟩
  | cons e _ ih =>
    rw [receiveBlocks]
    cases fromBinaryArray readBlock e.block with
    | none => exact ⟨rfl,rfl⟩
    | some _ =>
      dsimp only
      split_ifs <;> first | exact ih _ _ | exact ⟨rfl,rfl⟩

def Command.reported (c : ConnectionContext) : Command → Option UInt32
  | .handshake _ sameNetwork _ payload =>
    if sameNetwork = true ∧ c.isIncome = true ∧ c.peerId = 0 then some payload.currentHeight
    else none
  | .timedSync payload =>
    if c.state = .beforeHandshake then none else some payload.currentHeight
  | .timedSyncResponse peerlistAccepted payload =>
    if peerlistAccepted = false ∨ c.state = .beforeHandshake then none
    else some payload.currentHeight
  | .newBlock _ currentHeight => some currentHeight
  | .responseGetObjects currentHeight _ =>
    if currentHeight < c.lastResponseHeight then none else some currentHeight
  | _ => none

def Command.entered (core : Core) : Command → Option UInt32
  | .responseChainEntry _ totalHeight (id :: _) =>
    if core.haveBlock id then some totalHeight else none
  | _ => none

structure Outcome.Heard (o : Outcome) (core : Core) (h : Handler) (c : ConnectionContext)
    (command : Command) : Prop extends o.Frames h c where
  observedHeight : o.handler.observedHeight =
    (command.reported c).elim h.observedHeight (updateObservedHeight core h c)
  remoteHeight : o.context.remoteBlockchainHeight =
    ((command.reported c).or (command.entered core)).getD c.remoteBlockchainHeight

theorem drop_heard {cmd : Command} (hrep : cmd.reported c = none)
    (hen : cmd.entered core = none) : (Outcome.done h c.drop).Heard core h c cmd := by
  refine ⟨⟨rfl,rfl,rfl⟩,?_,?_⟩
  · rw [hrep]
    rfl
  · rw [hrep, hen]
    rfl

theorem processPayloadSyncData_heard (pl : CoreSyncData) (ini : Bool)
    (htkn : c.state = .beforeHandshake → ini = true) :
    (Outcome.done (processPayloadSyncData core h pl c ini).1
      (processPayloadSyncData core h pl c ini).2).Frames h c ∧
    (processPayloadSyncData core h pl c ini).1.observedHeight =
      updateObservedHeight core h c pl.currentHeight ∧
    (processPayloadSyncData core h pl c ini).2.remoteBlockchainHeight = pl.currentHeight := by
  have hnot : ¬(c.state = .beforeHandshake ∧ ini = false) := by
    rintro ⟨hsta,hini⟩
    rw [htkn hsta] at hini
    cases hini
  unfold processPayloadSyncData
  rw [if_neg hnot]
  split_ifs <;> exact ⟨⟨rfl,rfl,rfl⟩,rfl,rfl⟩

theorem timedSync_heard (pl : CoreSyncData) {cmd : Command}
    (hrep : cmd.reported c =
      if c.state = .beforeHandshake then none else some pl.currentHeight)
    (hen : cmd.entered core = none) :
    (Outcome.done (processPayloadSyncData core h pl c false).1
      (processPayloadSyncData core h pl c false).2).Heard core h c cmd := by
  by_cases hsta : c.state = .beforeHandshake
  · rw [if_pos hsta] at hrep
    unfold processPayloadSyncData
    rw [if_pos ⟨hsta,rfl⟩]
    refine ⟨⟨rfl,rfl,rfl⟩,?_,?_⟩ <;> rw [hrep]
    · rfl
    · rw [hen]
      rfl
  · rw [if_neg hsta] at hrep
    obtain ⟨hfrs,hobs,hrmt⟩ := processPayloadSyncData_heard core h c pl false fun h => absurd h hsta
    refine ⟨hfrs,?_,?_⟩ <;> rw [hrep]
    · exact hobs
    · exact hrmt

theorem handleResponseGetObjects_heard (ch : UInt32) (bs : List BlockCompleteEntry) :
    (handleResponseGetObjects getBlockHash core h ch bs c).Heard core h c
      (.responseGetObjects ch bs) := by
  unfold handleResponseGetObjects
  by_cases hl : ch < c.lastResponseHeight
  · rw [if_pos hl]
    exact drop_heard core h c (if_pos hl) rfl
  · rw [if_neg hl]
    have hf := receiveBlocks_frame getBlockHash core (report core h c ch).2 0 bs
    have hrep : (Command.responseGetObjects ch bs).reported c = some ch := if_neg hl
    dsimp only
    cases hrec : receiveBlocks getBlockHash core 0 bs (report core h c ch).2 with
    | mk all c' =>
      rw [hrec] at hf
      have hh : ∀ task, (Outcome.mk (report core h c ch).1 c' [] task).Heard core h c
          (.responseGetObjects ch bs) := by
        intro task
        refine ⟨⟨rfl,rfl,hf.1⟩,?_,?_⟩ <;> rw [hrep]
        · rfl
        · exact hf.2
      cases all with
      | false => exact hh _
      | true =>
        dsimp only
        split_ifs
        · obtain ⟨⟨hc,hp,hid⟩,hobs,hrmt⟩ := hh .settling
          exact ⟨⟨hc,hp,hid⟩,hobs,hrmt⟩
        · exact hh _

theorem recordChainEntry_frame (sh th : UInt32) (blockIds : List Hash) :
    (recordChainEntry core sh th blockIds c).connectionId = c.connectionId ∧
      (recordChainEntry core sh th blockIds c).remoteBlockchainHeight =
        th := by
  unfold recordChainEntry
  dsimp only
  split_ifs <;> exact ⟨rfl,rfl⟩

theorem handleResponseChainEntry_heard (sh th : UInt32) (blockIds : List Hash) :
    (handleResponseChainEntry core h sh th blockIds c).Heard core h c
      (.responseChainEntry sh th blockIds) := by
  cases blockIds with
  | nil => exact ⟨⟨rfl,rfl,rfl⟩,rfl,rfl⟩
  | cons id blockIds =>
    cases hh : core.haveBlock id with
    | false =>
      simp only [handleResponseChainEntry, hh]
      apply drop_heard core h c rfl
      simp [Command.entered, hh]
    | true =>
      have hr := recordChainEntry_frame core c sh th (id :: blockIds)
      obtain ⟨⟨hc,hp,hid⟩,hobs,hrmt⟩ := requestMissingObjects_level core h
        (recordChainEntry core sh th (id :: blockIds) c) false
      simp only [handleResponseChainEntry, hh]
      refine ⟨⟨hc,hp,hid.trans hr.1⟩,hobs,?_⟩
      rw [Command.entered, if_pos hh]
      exact hrmt.trans hr.2

theorem handleNotifyNewBlock_heard (e : BlockCompleteEntry) (ch : UInt32) :
    (handleNotifyNewBlock core h e ch c).Heard core h c (.newBlock e ch) := by
  unfold handleNotifyNewBlock
  dsimp only
  split_ifs <;> exact ⟨⟨rfl,rfl,rfl⟩,rfl,rfl⟩

theorem handleHandshake_heard (ver : UInt8) (sn : Bool) (pid : PeerId)
    (pl : CoreSyncData) : (handleHandshake core h ver sn pid pl c).Heard core h c
      (.handshake ver sn pid pl) := by
  have href : ¬(sn = true ∧ c.isIncome = true ∧ c.peerId = 0) →
      (Outcome.done h { c with version := ver }.drop).Heard core h c
        (.handshake ver sn pid pl) := by
    intro hnot
    have hrep : (Command.handshake ver sn pid pl).reported c = none := if_neg hnot
    obtain ⟨⟨hc,hp,hid⟩,hobs,hrmt⟩ := drop_heard core h c hrep rfl
    exact ⟨⟨hc,hp,hid⟩,hobs,hrmt⟩
  unfold handleHandshake
  dsimp only
  by_cases htkn : sn = true ∧ c.isIncome = true ∧ c.peerId = 0
  · have hrep : (Command.handshake ver sn pid pl).reported c = some pl.currentHeight := if_pos htkn
    obtain ⟨hn,hi,hpe⟩ := htkn
    rw [if_neg (by simp [hn]), if_neg (by simp [hi]), if_neg (by simp [hpe])]
    obtain ⟨⟨hc,hp,hid⟩,hobs,hrmt⟩ :=
      processPayloadSyncData_heard core h { c with version := ver } pl true fun _ => rfl
    refine ⟨⟨hc,hp,hid⟩,?_,?_⟩ <;> rw [hrep]
    · exact hobs
    · exact hrmt
  · split_ifs with hn hi hpe
    · exact href htkn
    · exact href htkn
    · exact href htkn
    · refine absurd ⟨?_,?_,?_⟩ htkn
      · simpa using hn
      · simpa using hi
      · simpa using hpe

theorem handleCommand_heard (cmd : Command) :
    (handleCommand getBlockHash core h c cmd).Heard core h c cmd := by
  cases cmd with
  | handshake ver sn pid pl =>
    exact handleHandshake_heard core h c ver sn pid pl
  | timedSync pl => exact timedSync_heard core h c pl rfl rfl
  | timedSyncResponse peerlistAccepted pl =>
    cases peerlistAccepted with
    | false =>
      apply drop_heard core h c _ rfl
      simp [Command.reported]
    | true =>
      apply timedSync_heard core h c pl _ rfl
      simp [Command.reported]
  | newBlock e ch => exact handleNotifyNewBlock_heard core h c e ch
  | requestGetObjects =>
    unfold handleCommand handleRequestGetObjects
    split_ifs <;> exact ⟨⟨rfl,rfl,rfl⟩,rfl,rfl⟩
  | responseGetObjects ch bs =>
    exact handleResponseGetObjects_heard getBlockHash core h c ch bs
  | requestChain blockIds =>
    simp only [handleCommand, handleRequestChain]
    cases blockIds.getLast? with
    | none => exact ⟨⟨rfl,rfl,rfl⟩,rfl,rfl⟩
    | some _ =>
      dsimp only
      split_ifs <;> exact ⟨⟨rfl,rfl,rfl⟩,rfl,rfl⟩
  | responseChainEntry sh th blockIds =>
    exact handleResponseChainEntry_heard core h c sh th blockIds
  | other => exact ⟨⟨rfl,rfl,rfl⟩,rfl,rfl⟩

end Frames

end Orbis.PeerHandler
