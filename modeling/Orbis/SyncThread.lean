import Orbis.EventRuns

/-!
# The synchronizer's working thread

The blockchain synchronizer runs one working thread beside the callbacks of
the node and the calls of its owner. They share two variables under a lock:
the state the thread is in and the state it is to take next. The thread is a
control flow with one phase for each stretch between two accesses of shared
data or calls to the outside; what the outside answers is part of the action.
-/

set_option autoImplicit false

namespace Orbis.SyncThread

inductive SyncState where
  | idle
  | poolSync
  | blockchainSync
  | stopped
  deriving DecidableEq, Repr

def SyncState.priority : SyncState → ℕ
  | .idle => 0
  | .poolSync => 1
  | .blockchainSync => 2
  | .stopped => 3

/-- The places whose failure handler asks for the idle state: an error or a
malformed transaction in the node's answer, a refusal by a consumer, an
exception caught by `startBlockchainSync`, and an error of a pool request. -/
inductive Site where
  | answer
  | update
  | caught
  | pool
  deriving DecidableEq, Repr

inductive Phase where
  | absent
  | checking
  | actualizing
  | waiting
  | returning
  | startingBlocks
  | queryingBlocks
  | readingBlocks (left : ℕ)
  | buildingBlock (left : ℕ)
  | readBlocks
  | updating (left : ℕ) (changed : Bool)
  | comparing
  | again
  | reporting
  | finishing
  | interrupting
  | failing (site : Site)
  | failed (site : Site)
  | startingPool
  | queryingUnion
  | queryingIntersection
  | outdated
  | poolConsumers (left : ℕ)
  | poolUpdating (left : ℕ)
  | poolDone
  | ended
  | crashed
  deriving DecidableEq, Repr

def Site.reported : Site → Phase
  | .update => .finishing
  | _ => .returning

/-- A refused update is not reported when stop was requested meanwhile. -/
def Site.unset : Site → Phase
  | .update => .finishing
  | site => .failed site

/-- The handlers that stand within the try block of `startBlockchainSync`. -/
def Site.guarded : Site → Bool
  | .answer | .update => true
  | .caught | .pool => false

inductive Event where
  | notified
  | started
  | waits
  | stopRequested
  | restarted
  | attached
  | detached
  | seen
  | delivered
  | failed
  | escaped
  deriving DecidableEq, Repr

structure Machine where
  currentState : SyncState
  futureState : SyncState
  consumers : ℕ
  tasks : ℕ
  worker : Phase
  leaving : Bool
  deriving DecidableEq, Repr

def Machine.initial : Machine where
  currentState := .stopped
  futureState := .stopped
  consumers := 0
  tasks := 0
  worker := .absent
  leaving := false

def Machine.setFutureState (m : Machine) (s : SyncState) : Machine :=
  if m.futureState.priority < s.priority then { m with futureState := s } else m

inductive Operation where
  | goto (next : Phase)
  | check (seen unseen : Phase)
  | setFuture (s : SyncState) (next : Phase)
  | setIdle (set unset : Phase)
  | deliver (next : Phase)
  | loop
  | actualizeFutureState
  | wake
  | back
  | escape
  deriving DecidableEq, Repr

/-- What a call of the thread to the node, a consumer or an observer comes
back with. In `updateConsumers` a consumer that is up to date is `done`, and
`broken` is an exception after the consumer was given the blocks. -/
inductive Answer where
  | done
  | noHistory
  | blocks (count : ℕ)
  | error
  | malformed
  | throws
  | broken
  | accepted
  | refused
  | behind
  | differing
  | outdated
  deriving DecidableEq, Repr

/-- The text of `startPoolSync` and `processPoolTxs`. There is no try block
around it: an exception leaves the thread. -/
def poolOperation (consumers : ℕ) : Phase → Answer → Option Operation
  | .startingPool, .done => some (.goto .queryingUnion)
  | .startingPool, .throws => some .escape
  | .queryingUnion, .done => some (.goto (.poolConsumers consumers))
  | .queryingUnion, .differing => some (.goto .queryingIntersection)
  | .queryingUnion, .outdated => some (.goto .outdated)
  | .queryingUnion, .error => some (.goto (.failing .pool))
  | .queryingUnion, .throws => some .escape
  | .queryingIntersection, .done => some (.goto (.poolConsumers consumers))
  | .queryingIntersection, .outdated => some (.goto .outdated)
  | .queryingIntersection, .error => some (.goto (.failing .pool))
  | .queryingIntersection, .throws => some .escape
  | .outdated, .done => some (.setFuture .blockchainSync .returning)
  | .poolConsumers 0, .done => some (.goto .poolDone)
  | .poolConsumers (left + 1), .done => some (.check .poolDone (.poolUpdating left))
  | .poolUpdating left, .done => some (.goto (.poolConsumers left))
  | .poolUpdating _, .error => some (.goto .poolDone)
  | .poolUpdating _, .throws => some .escape
  | .poolDone, .done => some (.goto .returning)
  | .poolDone, .throws => some .escape
  | _, _ => none

/-- The text of `workingProcedure`, `startBlockchainSync`, `processBlocks` and
`updateConsumers`. An exception reaches the handler around the call, or leaves
the thread where there is none. -/
def operation (consumers : ℕ) : Phase → Answer → Option Operation
  | .checking, .done => some .loop
  | .actualizing, .done => some .actualizeFutureState
  | .waiting, .done => some .wake
  | .returning, .done => some .back
  -- getCommonHistory stands before the try block
  | .startingBlocks, .done => some (.goto .queryingBlocks)
  | .startingBlocks, .noHistory => some (.goto .returning)
  | .startingBlocks, .throws => some .escape
  | .queryingBlocks, .blocks count => some (.goto (.readingBlocks count))
  | .queryingBlocks, .error => some (.goto (.failing .answer))
  | .queryingBlocks, .throws => some (.goto (.failing .caught))
  | .readingBlocks 0, .done => some (.goto .readBlocks)
  | .readingBlocks (left + 1), .done => some (.check .readBlocks (.buildingBlock left))
  | .buildingBlock left, .done => some (.goto (.readingBlocks left))
  | .buildingBlock _, .malformed => some (.goto (.failing .answer))
  | .buildingBlock _, .throws => some (.goto (.failing .caught))
  | .readBlocks, .done => some (.check .finishing (.updating consumers false))
  | .updating 0 true, .done => some (.goto .again)
  | .updating 0 false, .done => some (.goto .comparing)
  | .updating (left + 1) changed, .done => some (.goto (.updating left changed))
  | .updating (left + 1) _, .accepted => some (.deliver (.updating left true))
  | .updating (_ + 1) _, .refused => some (.deliver (.failing .update))
  | .updating (_ + 1) _, .throws => some (.goto (.failing .caught))
  | .updating (_ + 1) _, .broken => some (.deliver (.failing .caught))
  | .comparing, .done => some (.goto .finishing)
  | .comparing, .behind => some (.goto .again)
  | .comparing, .throws => some (.goto (.failing .caught))
  | .again, .done => some (.setFuture .blockchainSync .reporting)
  | .reporting, .done => some (.goto .finishing)
  | .reporting, .throws => some (.goto (.failing .caught))
  | .finishing, .done => some (.check .interrupting .returning)
  | .interrupting, .done => some (.goto .returning)
  | .interrupting, .throws => some (.goto (.failing .caught))
  | .failing site, .done => some (.setIdle (.failed site) site.unset)
  | .failed site, .done => some (.goto site.reported)
  | .failed site, .throws => some (if site.guarded then .goto (.failing .caught) else .escape)
  | phase, answer => poolOperation consumers phase answer

/-- The events of `actualizeFutureState` on entry: the observer is added when
the thread starts and removed when it is to stop. -/
def observerEvents (currentState futureState : SyncState) : List Event :=
  (if currentState = .stopped ∧ futureState = .blockchainSync then [.attached] else []) ++
    if futureState = .stopped ∧ currentState ≠ .stopped then [.detached] else []

def actualizeFutureState (m : Machine) : Machine × List Event :=
  let events := observerEvents m.currentState m.futureState
  let m := { m with tasks := 0, currentState := m.futureState }
  match m.futureState with
  | .stopped => ({ m with worker := .returning }, events)
  | .blockchainSync =>
    ({ m with futureState := .poolSync, worker := .startingBlocks }, events ++ [.started])
  | .poolSync => ({ m with futureState := .idle, worker := .startingPool }, events)
  | .idle => ({ m with worker := .waiting }, events ++ [.waits])

def perform (m : Machine) : Operation → Option (Machine × List Event)
  | .goto next => some ({ m with worker := next }, [])
  | .check seen unseen =>
    if m.futureState = .stopped then some ({ m with worker := seen }, [.seen])
    else some ({ m with worker := unseen }, [])
  | .setFuture s next => some ({ m.setFutureState s with worker := next }, [])
  | .setIdle set unset =>
    if m.futureState ≠ .stopped then
      some ({ m with futureState := .idle, worker := set }, [.failed])
    else some ({ m with worker := unset }, [])
  | .deliver next => some ({ m with worker := next }, [.delivered])
  | .loop =>
    if m.futureState = .stopped then
      some ({ m with leaving := true, worker := .actualizing }, [.seen])
    else some ({ m with worker := .actualizing }, [])
  | .actualizeFutureState => some (actualizeFutureState m)
  | .wake =>
    if m.futureState ≠ .idle ∨ m.tasks ≠ 0 then some ({ m with worker := .returning }, []) else none
  | .back => some ({ m with worker := if m.leaving then .ended else .checking }, [])
  | .escape => some ({ m with worker := .crashed }, [.escaped])

inductive Action where
  | work (answer : Answer)
  | blockNotification
  | poolChanged
  | addTask
  | addConsumer
  | removeConsumer
  | start
  | stop
  | join
  deriving DecidableEq, Repr

def Action.isWork : Action → Bool
  | .work _ => true
  | _ => false

/-- An exception that leaves the thread ends the process, and nothing happens
after it. A call that the synchronizer refuses is not a step. -/
def step (m : Machine) (action : Action) : Option (Machine × List Event) :=
  if m.worker = .crashed then none
  else
    match action with
    | .work answer => (operation m.consumers m.worker answer).bind (perform m)
    | .blockNotification => some (m.setFutureState .blockchainSync, [.notified])
    | .poolChanged => some (m.setFutureState .poolSync, [])
    | .addTask =>
      if m.currentState = .stopped ∨ m.futureState = .stopped then none
      else some ({ m with tasks := m.tasks + 1 }, [])
    | .addConsumer =>
      if m.currentState = .stopped ∧ m.futureState = .stopped then
        some ({ m with consumers := m.consumers + 1 }, [])
      else none
    | .removeConsumer =>
      if m.currentState = .stopped ∧ m.futureState = .stopped then
        some ({ m with consumers := m.consumers - 1 }, [])
      else none
    | .start =>
      if m.consumers ≠ 0 ∧ m.worker = .absent ∧ m.currentState = .stopped ∧
          m.futureState = .stopped then
        some ({ m with futureState := .blockchainSync, worker := .checking, leaving := false },
          [.restarted])
      else none
    | .stop => some (m.setFutureState .stopped, [.stopRequested])
    | .join => if m.worker = .ended then some ({ m with worker := .absent }, []) else none

section Flow

variable {cs : ℕ} {p : Phase} {a : Answer} {op : Operation}

def Phase.inside : Phase → Bool
  | .absent | .checking | .actualizing | .returning | .ended | .crashed => false
  | _ => true

def Phase.updates : Phase → Bool
  | .updating _ _ => true
  | _ => false

def Site.rank : Site → ℕ
  | .caught | .pool => 5
  | .answer => 7
  | .update => 9

def Phase.rank : Phase → ℕ
  | .absent | .ended | .crashed => 0
  | .checking => 3
  | .returning => 4
  | .actualizing | .waiting | .outdated | .poolDone => 5
  | .failed site => site.rank
  | .failing site => site.rank + 1
  | .poolConsumers _ => 6
  | .interrupting | .poolUpdating _ => 7
  | .finishing | .queryingIntersection => 8
  | .reporting | .readBlocks | .queryingUnion => 9
  | .again | .readingBlocks _ | .startingPool => 10
  | .comparing | .buildingBlock _ | .queryingBlocks => 11
  | .startingBlocks => 12
  | .updating left _ => 12 + left

def Leads (p q : Phase) : Prop := p.inside = true ∧ (q.inside = true ∨ q = .returning)

/-- What the text of the thread never does otherwise: where each operation
stands, that consumers are updated only behind a check, and that every way
on after a stop request leads down. -/
def Operation.Fits (p : Phase) : Operation → Prop
  | .goto next =>
    Leads p next ∧ (next.updates = true → p.updates = true) ∧ next.rank < p.rank
  | .check seen unseen =>
    Leads p seen ∧ Leads p unseen ∧ seen.updates = false ∧ seen.rank < p.rank
  | .setFuture s next =>
    Leads p next ∧ s = .blockchainSync ∧ next.updates = false ∧ next.rank < p.rank
  | .setIdle set unset =>
    Leads p set ∧ Leads p unset ∧ set.updates = false ∧ unset.updates = false ∧
      unset.rank < p.rank
  | .deliver next => Leads p next ∧ p.updates = true ∧ next.rank < p.rank
  | .loop => p = .checking
  | .actualizeFutureState => p = .actualizing
  | .wake => p = .waiting
  | .back => p = .returning
  | .escape => p.inside = true

theorem poolOperation_fits (h : poolOperation cs p a = some op) : op.Fits p := by
  unfold poolOperation at h
  split at h
  all_goals cases h
  all_goals simp [Operation.Fits, Leads, Phase.inside, Phase.updates, Phase.rank, Site.rank]

theorem operation_fits (h : operation cs p a = some op) : op.Fits p := by
  unfold operation at h
  split at h
  case h_33 | h_34 | h_35 =>
    rename_i site
    cases h
    cases site <;> simp [Operation.Fits, Leads, Phase.inside, Phase.updates, Phase.rank,
      Site.rank, Site.reported, Site.unset, Site.guarded]
  case h_36 => exact poolOperation_fits h
  all_goals cases h
  all_goals simp [Operation.Fits, Leads, Phase.inside, Phase.updates, Phase.rank, Site.rank]
  all_goals omega

theorem operation_ready (consumers : ℕ) (hp : p ≠ .absent ∧ p ≠ .ended ∧ p ≠ .crashed) :
    ∃ a op, operation consumers p a = some op ∧ op ≠ .escape := by
  cases p with
  | absent | ended | crashed => simp at hp
  | queryingBlocks => exact ⟨.blocks 0,_,rfl,by simp⟩
  | readingBlocks left => cases left <;> exact ⟨.done,_,rfl,by simp⟩
  | updating left changed =>
    cases left <;> cases changed <;> exact ⟨.done,_,rfl,by simp⟩
  | poolConsumers left => cases left <;> exact ⟨.done,_,rfl,by simp⟩
  | _ => exact ⟨.done,_,rfl,by simp⟩

end Flow

section Steps

variable {m m' : Machine} {op : Operation} {act : Action} {es new : List Event}

def Pending (m : Machine) : Prop :=
  m.futureState = .blockchainSync ∨ m.futureState = .stopped

theorem Pending.setFutureState (h : Pending m) (s : SyncState) : Pending (m.setFutureState s) := by
  unfold Machine.setFutureState
  split_ifs with hlt
  · cases h with
    | inl h =>
      rw [h] at hlt
      cases s <;> simp_all [SyncState.priority, Pending]
    | inr h =>
      rw [h] at hlt
      cases s <;> simp_all [SyncState.priority]
  · exact h

theorem setFutureState_of_stopped (h : m.futureState = .stopped) (s : SyncState) :
    m.setFutureState s = m := by
  unfold Machine.setFutureState
  rw [h, if_neg]
  cases s <;> simp [SyncState.priority]

theorem setFutureState_stopped (m : Machine) :
    (m.setFutureState .stopped).futureState = .stopped := by
  unfold Machine.setFutureState
  cases h : m.futureState <;> simp [SyncState.priority, h]

theorem setFutureState_blockchainSync (m : Machine) :
    Pending (m.setFutureState .blockchainSync) := by
  unfold Machine.setFutureState
  cases h : m.futureState <;> simp [SyncState.priority, h, Pending]

theorem setFutureState_frame (m : Machine) (s : SyncState) :
    (m.setFutureState s).currentState = m.currentState ∧
    (m.setFutureState s).worker = m.worker ∧ (m.setFutureState s).leaving = m.leaving := by
  unfold Machine.setFutureState
  split_ifs <;> exact ⟨rfl,rfl,rfl⟩

structure Effect (m m' : Machine) (new : List Event) : Prop where
  stays : m.futureState = .stopped → .restarted ∉ new → m'.futureState = .stopped
  asks : .stopRequested ∈ new → m'.futureState = .stopped
  sees : .seen ∈ new → m'.futureState = .stopped ∧ m'.worker.updates = false
  updates : m'.worker.updates = true → m.worker.updates = true ∨ m.futureState ≠ .stopped
  delivers : .delivered ∈ new → new = [.delivered] ∧ m.worker.updates = true
  notifies : .notified ∈ new → Pending m'
  pending : Pending m → .started ∉ new → .failed ∉ new → Pending m'
  fails : .failed ∈ new → new = [.failed]
  waits : .waits ∈ new → m.futureState = .idle ∧ .notified ∉ new
  crashes : m'.worker = .crashed → .escaped ∈ new
  observes : (m'.currentState = m.currentState ∧ .attached ∉ new ∧ .detached ∉ new) ∨
    (m', new) = actualizeFutureState m

theorem Leads.running {p q : Phase} (h : Leads p q) : q ≠ .absent ∧ q ≠ .ended ∧ q ≠ .crashed := by
  refine ⟨?_,?_,?_⟩ <;> intro heq <;> subst heq <;> simp [Leads, Phase.inside] at h

theorem Leads.ne_crashed {p q : Phase} (h : Leads p q) : q ≠ .crashed := h.running.2.2

theorem mem_observerEvents {currentState futureState : SyncState} {e : Event}
    (h : e ∈ observerEvents currentState futureState) : e = .attached ∨ e = .detached := by
  unfold observerEvents at h
  by_cases ho : currentState = .stopped ∧ futureState = .blockchainSync <;>
    by_cases hs : futureState = .stopped ∧ currentState ≠ .stopped <;> simp_all

theorem actualizeFutureState_effect (m : Machine) :
    Effect m (actualizeFutureState m).1 (actualizeFutureState m).2 := by
  have hev : ∀ e, e ≠ .attached → e ≠ .detached →
      e ∉ observerEvents m.currentState m.futureState := by
    intro e ha hdet hmem
    exact (mem_observerEvents hmem).elim ha hdet
  cases hfut : m.futureState <;> constructor <;>
    simp_all [actualizeFutureState, Pending, Phase.updates]

theorem perform_effect (hf : op.Fits m.worker) (h : perform m op = some (m', new)) :
    Effect m m' new := by
  cases op with
  | goto _ =>
    cases h
    have hne := hf.1.ne_crashed
    constructor <;> simp_all [Pending, Operation.Fits]
  | check _ _ =>
    have hse := hf.1.ne_crashed
    have hu := hf.2.1.ne_crashed
    by_cases hs : m.futureState = .stopped
    · rw [perform, if_pos hs] at h
      cases h
      constructor <;> simp_all [Pending, Operation.Fits]
    · rw [perform, if_neg hs] at h
      cases h
      constructor <;> simp_all [Pending]
  | setFuture _ _ =>
    have hne := hf.1.ne_crashed
    obtain ⟨-,rfl,_,-⟩ := hf
    cases h
    have hp := setFutureState_blockchainSync m
    have hst : m.futureState = .stopped → m.setFutureState .blockchainSync = m :=
      fun h => setFutureState_of_stopped h _
    have hcur := (setFutureState_frame m .blockchainSync).1
    constructor <;> simp_all [Pending]
  | setIdle _ _ =>
    have hset := hf.1.ne_crashed
    have hun := hf.2.1.ne_crashed
    by_cases hs : m.futureState = .stopped
    · rw [perform, if_neg (not_not.mpr hs)] at h
      cases h
      constructor <;> simp_all [Pending, Operation.Fits]
    · rw [perform, if_pos hs] at h
      cases h
      constructor <;> simp_all [Operation.Fits]
  | deliver _ =>
    have hne := hf.1.ne_crashed
    cases h
    constructor <;> simp_all [Pending, Operation.Fits]
  | loop =>
    by_cases hs : m.futureState = .stopped
    · rw [perform, if_pos hs] at h
      cases h
      constructor <;> simp_all [Pending, Phase.updates]
    · rw [perform, if_neg hs] at h
      cases h
      constructor <;> simp_all [Pending, Phase.updates]
  | actualizeFutureState =>
    have heff := actualizeFutureState_effect m
    rw [perform, Option.some.injEq] at h
    rwa [h] at heff
  | wake =>
    rw [perform, Option.ite_none_right_eq_some] at h
    cases h.2
    constructor <;> simp [Pending, Phase.updates]
  | back =>
    cases h
    by_cases hlv : m.leaving = true <;> constructor <;> simp_all [Pending, Phase.updates]
  | escape =>
    cases h
    constructor <;> simp [Pending, Phase.updates]

theorem step_effect (h : step m act = some (m', new)) : Effect m m' new := by
  unfold step at h
  rw [Option.ite_none_left_eq_some] at h
  obtain ⟨_,h⟩ := h
  cases act with
  | work _ =>
    obtain ⟨_,hop,hp⟩ := Option.bind_eq_some_iff.mp h
    exact perform_effect (operation_fits hop) hp
  | blockNotification =>
    cases h
    obtain ⟨hcur,hwk,-⟩ := setFutureState_frame m .blockchainSync
    have hpe := setFutureState_blockchainSync m
    have hs : m.futureState = .stopped → m.setFutureState .blockchainSync = m :=
      fun h => setFutureState_of_stopped h _
    constructor <;> simp_all
  | poolChanged =>
    cases h
    obtain ⟨hcur,hwk,-⟩ := setFutureState_frame m .poolSync
    have hpe : Pending m → Pending (m.setFutureState .poolSync) := fun h => h.setFutureState _
    have hs : m.futureState = .stopped → m.setFutureState .poolSync = m :=
      fun h => setFutureState_of_stopped h _
    constructor <;> simp_all
  | addTask =>
    rw [Option.ite_none_left_eq_some] at h
    cases h.2
    constructor <;> simp_all [Pending]
  | addConsumer =>
    rw [Option.ite_none_right_eq_some] at h
    cases h.2
    constructor <;> simp_all [Pending]
  | removeConsumer =>
    rw [Option.ite_none_right_eq_some] at h
    cases h.2
    constructor <;> simp_all [Pending]
  | start =>
    rw [Option.ite_none_right_eq_some] at h
    cases h.2
    constructor <;> simp_all [Pending, Phase.updates]
  | stop =>
    cases h
    obtain ⟨hcur,hwk,-⟩ := setFutureState_frame m .stopped
    have hfut := setFutureState_stopped m
    constructor <;> simp_all [Pending]
  | join =>
    rw [Option.ite_none_right_eq_some] at h
    cases h.2
    constructor <;> simp_all [Pending, Phase.updates]

end Steps

end Orbis.SyncThread
