import Orbis.PeerHandler

/-!
# The observed height

The handler keeps the greatest height it has heard of. It is raised when a
peer reports more, and computed again when a connection closes or when the
peer that had the greatest height reports less. The new computation leaves
this peer out together with the height it reports now, and it does not see an
outgoing connection that is still being entered; a chain entry stores a height
without any report.
-/

set_option autoImplicit false

namespace Orbis.PeerHeights

open ChainTypes PeerHandler

variable {c : Connection} {core : Core} {h : Handler} {id : ConnectionId} {o : Outcome}

section Maximum

variable {context : ConnectionContext}

theorem le_foldl_heights (conns : List Connection) (pht : UInt32) :
    pht ≤ conns.foldl (fun pht c =>
      if c.context.connectionId ≠ context.connectionId then
        max pht c.context.remoteBlockchainHeight
      else pht) pht := by
  induction conns generalizing pht with
  | nil => exact le_refl _
  | cons _ _ ih =>
    rw [List.foldl_cons]
    apply le_trans _ (ih _)
    split_ifs
    · exact le_max_left _ _
    · exact le_refl _

theorem le_foldl_height {conns : List Connection} (hc : c ∈ conns)
    (hid : c.context.connectionId ≠ context.connectionId) (pht : UInt32) :
    c.context.remoteBlockchainHeight ≤ conns.foldl (fun pht c =>
      if c.context.connectionId ≠ context.connectionId then
        max pht c.context.remoteBlockchainHeight
      else pht) pht := by
  induction conns generalizing pht with
  | nil => cases hc
  | cons _ conns ih =>
    rw [List.foldl_cons]
    rcases List.mem_cons.mp hc with rfl | hc
    · rw [if_pos hid]
      exact le_trans (le_max_right _ _) (le_foldl_heights conns _)
    · exact ih hc _

end Maximum

section Condition

def Matched (core : Core) (h : Handler) (id : ConnectionId) (height : UInt32) : Prop :=
  (∃ c ∈ h.connections, c.context.connectionId ≠ id ∧ height ≤ c.context.remoteBlockchainHeight) ∨
    height ≤ core.topHeight + 1

def PendingMatched (core : Core) (h : Handler) (id : ConnectionId) : Prop :=
  ∀ c ∈ h.pending, Matched core h id c.remoteBlockchainHeight

def CommandCovered (core : Core) (h : Handler) (c : ConnectionContext) (command : Command) :
    Prop :=
  (∀ height, command.entered core = some height → height ≤ h.observedHeight) ∧
    ∀ height, command.reported c = some height → height < c.remoteBlockchainHeight →
      c.remoteBlockchainHeight = h.observedHeight →
        Matched core h c.connectionId height ∧ PendingMatched core h c.connectionId

def Covered (h : Handler) : Event → Prop
  | .command core id command =>
    ∀ c, h.find id = some ⟨c,.reading⟩ → CommandCovered core h c command
  | .close core id => (h.find id).isSome → PendingMatched core h id
  | _ => True

variable (getBlockHash : Block → Hash)

def CoveredRun : Handler → List Event → Prop
  | _, [] => True
  | h, e :: es => Covered h e ∧ CoveredRun (step getBlockHash h e) es

end Condition

structure Topped (h : Handler) : Prop where
  connections : ∀ c ∈ h.connections, c.context.remoteBlockchainHeight ≤ h.observedHeight
  pending : ∀ c ∈ h.pending, c.remoteBlockchainHeight ≤ h.observedHeight

variable {height ht : UInt32}

theorem matched_le {context : ConnectionContext} (hm : Matched core h context.connectionId ht) :
    ht ≤ recalculateMaxObservedHeight core h context := by
  rcases hm with ⟨c,hc,hid,hle⟩ | hle
  · exact le_trans hle (le_trans (le_foldl_height hc hid 0) (le_max_left _ _))
  · exact le_trans hle (le_max_right _ _)

theorem other_le (core : Core) {context : ConnectionContext} (hc : c ∈ h.connections)
    (hid : c.context.connectionId ≠ context.connectionId) :
    c.context.remoteBlockchainHeight ≤ recalculateMaxObservedHeight core h context :=
  matched_le (.inl ⟨c,hc,hid,le_refl _⟩)

theorem find_some (hf : h.find id = some c) : c ∈ h.connections ∧ c.context.connectionId = id :=
  ⟨List.mem_of_find?_eq_some hf,by simpa using List.find?_some hf⟩

theorem waiting_some {c : ConnectionContext} (hw : h.waiting id = some c) : c ∈ h.pending :=
  List.mem_of_find?_eq_some hw

theorem updateObservedHeight_le {c : ConnectionContext} (htop : Topped h)
    (hown : c.remoteBlockchainHeight ≤ h.observedHeight)
    (hcov : ht < c.remoteBlockchainHeight → c.remoteBlockchainHeight = h.observedHeight →
      Matched core h c.connectionId ht ∧ PendingMatched core h c.connectionId) :
    ht ≤ updateObservedHeight core h c ht ∧
      (∀ d ∈ h.connections, d.context.connectionId ≠ c.connectionId →
        d.context.remoteBlockchainHeight ≤ updateObservedHeight core h c ht) ∧
      ∀ d ∈ h.pending, d.remoteBlockchainHeight ≤ updateObservedHeight core h c ht := by
  unfold updateObservedHeight
  by_cases hl : c.remoteBlockchainHeight < ht
  · rw [if_pos hl]
    refine ⟨le_max_right _ _,?_,?_⟩
    · intro d hd _
      exact le_trans (htop.connections d hd) (le_max_left _ _)
    · intro d hd
      exact le_trans (htop.pending d hd) (le_max_left _ _)
  · rw [if_neg hl]
    have hle : ht ≤ c.remoteBlockchainHeight := not_lt.mp hl
    by_cases hmax : ht ≠ c.remoteBlockchainHeight ∧ c.remoteBlockchainHeight = h.observedHeight
    · rw [if_pos hmax]
      obtain ⟨hm,hp⟩ := hcov (lt_of_le_of_ne hle hmax.1) hmax.2
      refine ⟨matched_le hm,?_,?_⟩
      · intro d hd hid
        exact other_le core hd hid
      · intro d hd
        exact matched_le (hp d hd)
    · rw [if_neg hmax]
      refine ⟨le_trans hle hown,?_,?_⟩
      · intro d hd _
        exact htop.connections d hd
      · exact htop.pending

theorem topped_store {c : ConnectionContext} (hfrs : o.Frames h c)
    (hown : o.context.remoteBlockchainHeight ≤ o.handler.observedHeight)
    (ho : ∀ d ∈ h.connections, d.context.connectionId ≠ id →
      d.context.remoteBlockchainHeight ≤ o.handler.observedHeight)
    (hp : ∀ d ∈ h.pending, d.remoteBlockchainHeight ≤ o.handler.observedHeight) :
    Topped (o.store id) := by
  constructor
  · intro d hd
    obtain ⟨d,hmem,rfl⟩ := List.mem_map.mp hd
    rw [hfrs.connections] at hmem
    by_cases hid : d.context.connectionId = id
    · rw [if_pos hid]
      exact hown
    · rw [if_neg hid]
      exact ho d hmem hid
  · intro d hd
    change d ∈ o.handler.pending at hd
    rw [hfrs.pending] at hd
    exact hp d hd

theorem topped_store_level (htop : Topped h) (hf : h.find id = some c)
    (hlvl : o.Level h c.context) : Topped (o.store id) := by
  apply topped_store hlvl.toFrames
  · rw [hlvl.observedHeight, hlvl.remoteHeight]
    exact htop.connections c (find_some hf).1
  · intro d hd _
    rw [hlvl.observedHeight]
    exact htop.connections d hd
  · intro d hd
    rw [hlvl.observedHeight]
    exact htop.pending d hd

theorem topped_store_heard {cmd : Command} (htop : Topped h) (hf : h.find id = some c)
    (hh : o.Heard core h c.context cmd) (hcov : CommandCovered core h c.context cmd)
    : Topped (o.store id) := by
  obtain ⟨hmem,hid⟩ := find_some hf
  have hown := htop.connections c hmem
  cases hrep : cmd.reported c.context with
  | none =>
    -- only a chain entry changes the height now, and the observed one stays
    have hobs : o.handler.observedHeight = h.observedHeight := by
      rw [hh.observedHeight, hrep]
      rfl
    apply topped_store hh.toFrames
    · rw [hh.remoteHeight, hrep, hobs]
      cases hen : cmd.entered core with
      | none => exact hown
      | some ht => exact hcov.1 ht hen
    · intro d hd _
      rw [hobs]
      exact htop.connections d hd
    · intro d hd
      rw [hobs]
      exact htop.pending d hd
  | some ht =>
    obtain ⟨hs,ho,hp⟩ := updateObservedHeight_le htop hown (hcov.2 ht hrep)
    have hobs : o.handler.observedHeight = updateObservedHeight core h c.context ht := by
      rw [hh.observedHeight, hrep]
      rfl
    apply topped_store hh.toFrames
    · rw [hh.remoteHeight, hrep, hobs]
      exact hs
    · intro d hd hne
      rw [hobs]
      exact ho d hd (by rwa [hid])
    · intro d hd
      rw [hobs]
      exact hp d hd

theorem topped_enter {c : ConnectionContext} (htop : Topped h)
    (hown : c.remoteBlockchainHeight ≤ h.observedHeight) : Topped (h.enter c) := by
  constructor
  · intro d hd
    rcases List.mem_append.mp hd with hd | hd
    · exact htop.connections d hd
    · rw [List.mem_singleton.mp hd]
      exact hown
  · exact htop.pending

theorem topped_forget (htop : Topped h) (id : ConnectionId) : Topped (h.forget id) :=
  ⟨htop.connections,fun c hc => htop.pending c (List.mem_of_mem_filter hc)⟩

theorem topped_connect (htop : Topped h) (core : Core) {ver : UInt8} {pid : PeerId}
    {pl : CoreSyncData} {r : Handler × ConnectionContext} (hr : r = processPayloadSyncData core h pl
      { ConnectionContext.opened id false with version := ver } true) :
    Topped { r.1 with pending := r.1.pending ++ [{ r.2 with peerId := pid }] } := by
  obtain ⟨hfrs,hobs,hrmt⟩ := processPayloadSyncData_heard core h
    { ConnectionContext.opened id false with version := ver } pl true fun _ => rfl
  rw [← hr] at hfrs hobs hrmt
  have hz : ∀ ht : UInt32, ¬ ht < 0 := fun _ => UInt32.not_lt_zero
  have hrsd : h.observedHeight ≤ r.1.observedHeight ∧ pl.currentHeight ≤ r.1.observedHeight := by
    rw [hobs]
    unfold updateObservedHeight
    split_ifs with hl hmax
    · exact ⟨le_max_left _ _,le_max_right _ _⟩
    · exact absurd (le_antisymm (not_lt.mp hl) (not_lt.mp (hz _))) hmax.1
    · exact ⟨le_refl _,le_trans (not_lt.mp hl) (not_lt.mp (hz _))⟩
  constructor
  · intro d hd
    change d ∈ r.1.connections at hd
    have hc : r.1.connections = h.connections := hfrs.connections
    rw [hc] at hd
    exact le_trans (htop.connections d hd) hrsd.1
  · intro d hd
    have hp : r.1.pending = h.pending := hfrs.pending
    rcases List.mem_append.mp hd with hd | hd
    · rw [hp] at hd
      exact le_trans (htop.pending d hd) hrsd.1
    · rw [List.mem_singleton.mp hd]
      change r.2.remoteBlockchainHeight ≤ r.1.observedHeight
      rw [hrmt]
      exact hrsd.2

theorem topped_close (hf : h.find id = some c) (hcov : PendingMatched core h id) :
    Topped ((onConnectionClosed core h c.context).remove id) := by
  have hid := (find_some hf).2
  constructor
  · intro d hd
    obtain ⟨hd,hne⟩ := List.mem_filter.mp hd
    exact other_le core hd (by simpa [hid] using hne)
  · intro d hd
    apply matched_le
    rw [hid]
    exact hcov d hd

theorem step_topped (getBlockHash : Block → Hash) (htop : Topped h) {e : Event}
    (hcov : Covered h e) : Topped (step getBlockHash h e) := by
  cases e with
  | accept _ =>
    rw [step]
    split_ifs
    · exact htop
    · exact topped_enter htop UInt32.zero_le
  | connect core _ _ _ _ =>
    rw [step]
    split_ifs
    · exact htop
    · exact topped_connect htop core rfl
  | register id =>
    rw [step]
    cases hw : h.waiting id with
    | none => exact htop
    | some c =>
      exact topped_enter (topped_forget htop id) (htop.pending c (waiting_some hw))
  | abandon id => exact topped_forget htop id
  | command core _ cmd =>
    rw [step]
    split
    · rename_i c hf
      exact topped_store_heard htop hf (handleCommand_heard getBlockHash core h c cmd) (hcov c hf)
    · exact htop
  | process core _ =>
    rw [step]
    split
    · rename_i c bs hf
      exact topped_store_level htop hf (processObjects_level core h c bs)
    · exact htop
  | settle core _ =>
    rw [step]
    split
    · rename_i c hf
      exact topped_store_level htop hf (settle_level core h c)
    · exact htop
  | close _ id =>
    rw [step]
    cases hf : h.find id with
    | none => exact htop
    | some _ =>
      apply topped_close hf
      apply hcov
      rw [hf]
      rfl
  | stop => exact ⟨htop.connections,htop.pending⟩

section Runs

variable (getBlockHash : Block → Hash)

theorem run_topped (htop : Topped h) {es : List Event} (hcov : CoveredRun getBlockHash h es)
    : Topped (run getBlockHash es h) := by
  induction es generalizing h with
  | nil => exact htop
  | cons _ _ ih => exact ih (step_topped getBlockHash htop hcov.1) hcov.2

/-- In every run whose steps meet the condition no open connection is above
the observed height, also none that the server has still to enter. -/
theorem observedHeight_covers (es : List Event)
    (hcovered : CoveredRun getBlockHash Handler.initial es) :
    (∀ c ∈ (run getBlockHash es Handler.initial).connections,
      c.context.remoteBlockchainHeight ≤ (run getBlockHash es Handler.initial).observedHeight) ∧
    ∀ c ∈ (run getBlockHash es Handler.initial).pending,
      c.remoteBlockchainHeight ≤ (run getBlockHash es Handler.initial).observedHeight :=
  have hini : Topped Handler.initial := ⟨List.forall_mem_nil _,List.forall_mem_nil _⟩
  have hend := run_topped getBlockHash hini hcovered
  ⟨hend.connections,hend.pending⟩

end Runs

def sampleCore : Core where
  haveBlock := fun id => decide (id = 1)
  topHeight := 0
  genesisId := 1
  sparseChain := [1]
  poolTransactions := []
  verificationFailed := fun _ => false
  handleIncomingBlock := ⟨false,false,false,false,false⟩
  handleGetObjects := true

def sampleHash (_ : Block) : Hash := 0

def greeted (id : ConnectionId) (height : UInt32) : List Event :=
  [.accept id, .settle sampleCore id,
    .command sampleCore id (.handshake 1 true 7 ⟨height,5⟩), .settle sampleCore id]

/-- One peer connects and the node connects to another one. -/
theorem observedHeight_covers_sample :
    let h := run sampleHash (greeted 1 100 ++ [.connect sampleCore 2 1 8 ⟨200,5⟩]) Handler.initial
    h.connections.map (fun c => c.context.remoteBlockchainHeight) = [100] ∧
      h.pending.map ConnectionContext.remoteBlockchainHeight = [200] ∧
      (∀ c ∈ h.connections, c.context.remoteBlockchainHeight ≤ h.observedHeight) ∧
      ∀ c ∈ h.pending, c.remoteBlockchainHeight ≤ h.observedHeight := by
  have hcov : CoveredRun sampleHash Handler.initial
      (greeted 1 100 ++ [.connect sampleCore 2 1 8 ⟨200,5⟩]) := by
    refine ⟨trivial,trivial,?_,trivial,trivial,trivial⟩
    intro c hf
    obtain rfl : ConnectionContext.opened 1 true = c :=
      congrArg Connection.context (Option.some.inj hf)
    constructor
    · intro height hen
      cases hen
    · intro height _ hl
      exact absurd hl UInt32.not_lt_zero
  exact ⟨by decide +kernel,by decide +kernel,observedHeight_covers sampleHash _ hcov⟩

def Overtopped (es : List Event) : Prop :=
  ∃ c ∈ (run sampleHash es Handler.initial).connections,
    (run sampleHash es Handler.initial).observedHeight < c.context.remoteBlockchainHeight

instance (es : List Event) : Decidable (Overtopped es) :=
  inferInstanceAs (Decidable (∃ c ∈ (run sampleHash es Handler.initial).connections,
    (run sampleHash es Handler.initial).observedHeight < c.context.remoteBlockchainHeight))

/-- Three ways to a connection above the observed height: the only peer
reports less than before, a chain entry names a height that was never
reported, another connection closes while an outgoing one is being entered. -/
theorem observedHeight_overtopped :
    Overtopped (greeted 1 100 ++ [.command sampleCore 1 (.timedSync ⟨90,5⟩)]) ∧
      Overtopped (greeted 1 10 ++ [.command sampleCore 1 (.responseChainEntry 0 50 [1])]) ∧
      Overtopped (greeted 1 5 ++
        [.connect sampleCore 2 1 8 ⟨100,5⟩, .close sampleCore 1, .register 2]) := by
  decide +kernel

end Orbis.PeerHeights
