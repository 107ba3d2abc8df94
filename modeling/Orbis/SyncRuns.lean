import Orbis.SyncThread

/-!
# Notifications and stop requests of the synchronizer

A block notification only raises the shared request, and the thread lowers it
where it takes the request up. A failure handler lowers it too, and a
notification that came in before is then forgotten. A stop request is never
lowered: the thread ends within a bounded number of its own steps, unless an
exception leaves it on the way.
-/

set_option autoImplicit false

namespace Orbis.SyncRuns

open EventRuns SyncThread

section Notifications

variable {m m' : Machine} {action : Action} {es new : List Event}

def Awaited (es : List Event) : Prop := Unanswered .notified .started es

structure Heeded (es : List Event) (m : Machine) : Prop where
  pending : Awaited es → Pending m
  waits : NeverWhile Awaited .waits es

theorem step_heeded (h : Heeded es m) (hs : step m action = some (m', new))
    (hfl : NeverWhile Awaited .failed (es ++ new)) : Heeded (es ++ new) m' := by
  have heff := step_effect hs
  constructor
  · intro ha
    rcases ha.of_append with hn | ⟨hbef,hst⟩
    · exact heff.notifies hn
    · apply heff.pending (h.pending hbef) hst
      intro hmem
      have hl := (neverWhile_append.mp hfl).2 [] [] (heff.fails hmem)
      apply hl
      rwa [List.append_nil]
  · rw [neverWhile_append]
    refine ⟨h.waits,?_⟩
    intro pre after hnew ha
    obtain ⟨hi,hn⟩ := heff.waits (by simp [hnew])
    rcases ha.of_append with hmem | ⟨hbef,-⟩
    · apply hn
      simp [hnew, hmem]
    · have hp := h.pending hbef
      simp [Pending, hi] at hp

/-- In every run in which no failure is handled while a block notification is
unanswered, the thread does not go to wait before it has started to fetch
blocks for each of them. -/
theorem blockNotification_answered {actions : List Action}
    (hrun : run step actions Machine.initial = some (m, es))
    (hfailed : NeverWhile (Unanswered .notified .started) .failed es) :
    NeverWhile (Unanswered .notified .started) .waits es := by
  have hh : NeverWhile Awaited .failed es → Heeded es m := by
    apply run_invariant (fun es m => NeverWhile Awaited .failed es → Heeded es m) _ _ hrun
    · intro es m action m' new h hs hfailed
      exact step_heeded (h (neverWhile_append.mp hfailed).1) hs hfailed
    · intro _
      constructor
      · intro h
        exact absurd h not_unanswered_nil
      · exact neverWhile_of_notMem List.not_mem_nil
  exact (hh hfailed).waits

def worked (count : ℕ) : List Action := List.replicate count (.work .done)

def notifiedDuringFetch : List Action :=
  [.addConsumer, .start] ++ worked 3 ++ [.blockNotification, .work (.blocks 0)] ++ worked 10 ++
    [.work (.blocks 0)] ++ worked 18

theorem blockNotification_answered_sample :
    ∃ m es, run step notifiedDuringFetch Machine.initial = some (m, es) ∧
      es = [.restarted, .attached, .started, .notified, .started, .waits] ∧
      NeverWhile (Unanswered .notified .started) .waits es := by
  have hrun : run step notifiedDuringFetch Machine.initial =
      some (⟨.idle, .idle, 1, 0, .waiting, false⟩,
        [.restarted, .attached, .started, .notified, .started, .waits]) := by decide
  refine ⟨_,_,hrun,rfl,?_⟩
  apply blockNotification_answered hrun
  exact neverWhile_of_notMem (by decide)

def notifiedBeforeError : List Action :=
  [.addConsumer, .start] ++ worked 3 ++ [.blockNotification, .work .error] ++ worked 5

/-- The node answers the request under way with an error. Its handler sets the
idle state over the notification that came in meanwhile, and the thread waits
although nobody asked it to stop. -/
theorem blockNotification_forgotten :
    ∃ m es, run step notifiedBeforeError Machine.initial = some (m, es) ∧
      .stopRequested ∉ es ∧ ¬ NeverWhile (Unanswered .notified .started) .waits es := by
  have hrun : run step notifiedBeforeError Machine.initial =
      some (⟨.idle, .idle, 1, 0, .waiting, false⟩,
        [.restarted, .attached, .started, .notified, .failed, .waits]) := by decide
  refine ⟨_,_,hrun,by decide,?_⟩
  intro hn
  apply hn [.restarted, .attached, .started, .notified, .failed] [] rfl
  exact ⟨[.restarted, .attached, .started],[.failed],rfl,by decide⟩

end Notifications

section Stopping

variable {m m' : Machine} {op : Operation} {action : Action} {es new : List Event}

structure Coherent (m : Machine) : Prop where
  opening : m.currentState = .stopped → Pending m
  inside : m.worker.inside = true → m.currentState ≠ .stopped
  leaving : m.leaving = true → m.futureState = .stopped ∧
    (m.worker = .actualizing ∨ (m.currentState = .stopped ∧
      (m.worker = .returning ∨ m.worker = .ended ∨ m.worker = .absent)))
  left : m.worker = .absent ∨ m.worker = .ended →
    m.currentState = .stopped ∧ m.futureState = .stopped

theorem Coherent.staying (h : Coherent m) (hisd : m.worker.inside = true) : m.leaving = false := by
  rw [← Bool.not_eq_true]
  intro hlv
  rcases (h.leaving hlv).2 with hw | ⟨-,hw | hw | hw⟩ <;>
    simp [hw, Phase.inside] at hisd

theorem Coherent.move (h : Coherent m) {next : Phase} (hlds : Leads m.worker next)
    (s : SyncState) : Coherent { m with futureState := s, worker := next } := by
  have hcur := h.inside hlds.1
  have hs := h.staying hlds.1
  constructor
  · intro hst
    exact absurd hst hcur
  · intro _
    exact hcur
  · intro hlv
    simp [hs] at hlv
  · intro hl
    obtain ⟨habs,hend,-⟩ := hlds.running
    exact absurd hl (not_or.mpr ⟨habs,hend⟩)

theorem Coherent.setFutureState (h : Coherent m) (s : SyncState) :
    Coherent (m.setFutureState s) := by
  obtain ⟨hcur,hwk,hlv⟩ := setFutureState_frame m s
  constructor
  · rw [hcur]
    intro hs
    exact (h.opening hs).setFutureState s
  · rw [hcur, hwk]
    exact h.inside
  · rw [hcur, hwk, hlv]
    intro hl
    obtain ⟨hs,hp⟩ := h.leaving hl
    rw [setFutureState_of_stopped hs]
    exact ⟨hs,hp⟩
  · rw [hcur, hwk]
    intro hl
    obtain ⟨hs,hfut⟩ := h.left hl
    rw [setFutureState_of_stopped hfut]
    exact ⟨hs,hfut⟩

theorem Coherent.actualizeFutureState (h : Coherent m) (hwk : m.worker = .actualizing) :
    Coherent (actualizeFutureState m).1 := by
  have hlv := h.leaving
  cases hfut : m.futureState <;> constructor <;>
    simp_all [SyncThread.actualizeFutureState, Pending, Phase.inside]

theorem perform_coherent (h : Coherent m) (hf : op.Fits m.worker)
    (hp : perform m op = some (m', new)) : Coherent m' := by
  cases op with
  | goto _ =>
    cases hp
    exact h.move hf.1 m.futureState
  | check _ _ =>
    rw [perform] at hp
    split_ifs at hp <;> cases hp
    · exact h.move hf.1 m.futureState
    · exact h.move hf.2.1 m.futureState
  | setFuture s _ =>
    cases hp
    unfold Machine.setFutureState
    split_ifs
    · exact h.move hf.1 s
    · exact h.move hf.1 m.futureState
  | setIdle _ _ =>
    rw [perform] at hp
    split_ifs at hp <;> cases hp
    · exact h.move hf.1 .idle
    · exact h.move hf.2.1 m.futureState
  | deliver _ =>
    cases hp
    exact h.move hf.1 m.futureState
  | loop =>
    have hwk : m.worker = .checking := hf
    rw [perform] at hp
    obtain ⟨ho,-,hlv,-⟩ := h
    split_ifs at hp <;> cases hp <;> constructor <;> simp_all [Pending, Phase.inside]
  | actualizeFutureState =>
    rw [perform, Option.some.injEq] at hp
    have ha := h.actualizeFutureState hf
    rwa [hp] at ha
  | wake =>
    rw [perform, Option.ite_none_right_eq_some] at hp
    cases hp.2
    have hwk : m.worker = .waiting := hf
    refine h.move ⟨?_,.inr rfl⟩ m.futureState
    rw [hwk]
    rfl
  | back =>
    have hwk : m.worker = .returning := hf
    cases hp
    obtain ⟨ho,-,hlv,-⟩ := h
    by_cases hl : m.leaving = true <;> constructor <;> simp_all [Pending, Phase.inside]
  | escape =>
    cases hp
    have hs := h.staying hf
    have hcur := h.inside hf
    constructor <;> simp_all [Phase.inside]

theorem step_coherent (h : Coherent m) (hs : step m action = some (m', new)) : Coherent m' := by
  unfold step at hs
  rw [Option.ite_none_left_eq_some] at hs
  replace hs := hs.2
  cases action with
  | work _ =>
    obtain ⟨_,hop,hp⟩ := Option.bind_eq_some_iff.mp hs
    exact perform_coherent h (operation_fits hop) hp
  | blockNotification | poolChanged | stop =>
    cases hs
    exact h.setFutureState _
  | addTask =>
    rw [Option.ite_none_left_eq_some] at hs
    cases hs.2
    exact ⟨h.opening,h.inside,h.leaving,h.left⟩
  | addConsumer | removeConsumer =>
    rw [Option.ite_none_right_eq_some] at hs
    cases hs.2
    exact ⟨h.opening,h.inside,h.leaving,h.left⟩
  | start =>
    rw [Option.ite_none_right_eq_some] at hs
    cases hs.2
    constructor <;> simp [Pending, Phase.inside]
  | join =>
    rw [Option.ite_none_right_eq_some] at hs
    obtain ⟨_,hs⟩ := hs
    cases hs
    obtain ⟨_,-,_,_⟩ := h
    constructor <;> simp_all [Pending, Phase.inside]

def observing (m : Machine) : ℕ := if m.currentState = .stopped then 0 else 1

theorem step_observing (h : Coherent m) (hs : step m action = some (m', new)) :
    new.count .attached + observing m = new.count .detached + observing m' := by
  rcases (step_effect hs).observes with ⟨hcur,ha,hdet⟩ | hac
  · rw [List.count_eq_zero_of_not_mem ha, List.count_eq_zero_of_not_mem hdet]
    simp [observing, hcur]
  · have ho := h.opening
    by_cases hcur : m.currentState = .stopped <;> cases hfut : m.futureState <;>
      simp_all [actualizeFutureState, observerEvents, observing, Pending]

structure Orderly (es : List Event) (m : Machine) : Prop where
  coherent : Coherent m
  balance : es.count .attached = es.count .detached + observing m
  asked : Unanswered .stopRequested .restarted es → m.futureState = .stopped
  seen : Unanswered .seen .restarted es → m.futureState = .stopped ∧ m.worker.updates = false
  delivers : NeverWhile (Unanswered .seen .restarted) .delivered es
  crashed : m.worker = .crashed → .escaped ∈ es

theorem initial_orderly : Orderly [] Machine.initial := by
  constructor
  · constructor <;> simp [Machine.initial, Pending, Phase.inside]
  · rfl
  · intro h
    exact absurd h not_unanswered_nil
  · intro h
    exact absurd h not_unanswered_nil
  · exact neverWhile_of_notMem List.not_mem_nil
  · simp [Machine.initial]

theorem step_orderly (h : Orderly es m) (hst : step m action = some (m', new)) :
    Orderly (es ++ new) m' := by
  have heff := step_effect hst
  constructor
  · exact step_coherent h.coherent hst
  · have ho := step_observing h.coherent hst
    have hb := h.balance
    rw [List.count_append, List.count_append]
    omega
  · intro ha
    rcases ha.of_append with hmem | ⟨hbef,hr⟩
    · exact heff.asks hmem
    · exact heff.stays (h.asked hbef) hr
  · intro hs
    rcases hs.of_append with hmem | ⟨hbef,hr⟩
    · exact heff.sees hmem
    · obtain ⟨hstpd,hu⟩ := h.seen hbef
      refine ⟨heff.stays hstpd hr,?_⟩
      rw [← Bool.not_eq_true]
      intro hlat
      rcases heff.updates hlat with hnow | hru
      · simp [hu] at hnow
      · exact hru hstpd
  · rw [neverWhile_append]
    refine ⟨h.delivers,?_⟩
    intro pre after hnew hs
    obtain ⟨hone,hu⟩ := heff.delivers (by simp [hnew])
    -- the delivery is the only event of its step
    have hfst : pre = [] ∧ after = [] := by
      simpa [hone, List.cons_eq_append_iff] using hnew
    rw [hfst.1, List.append_nil] at hs
    simp [(h.seen hs).2] at hu
  · intro hcr
    exact List.mem_append_right es (heff.crashes hcr)

def remaining (m : Machine) : ℕ :=
  if m.leaving = true then
    match m.worker with
    | .actualizing => 2
    | .returning => 1
    | _ => 0
  else m.worker.rank

theorem remaining_of_staying (h : m.leaving = false) : remaining m = m.worker.rank := by
  simp [remaining, h]

theorem perform_remaining (h : Coherent m) (hs : m.futureState = .stopped) (hf : op.Fits m.worker)
    (hp : perform m op = some (m', new)) (hesc : .escaped ∉ new) : remaining m' < remaining m := by
  have hg : ∀ next, Leads m.worker next → next.rank < m.worker.rank →
      remaining { m with worker := next } < remaining m := by
    intro next hlds hr
    have hst := h.staying hlds.1
    rw [remaining_of_staying hst, remaining_of_staying (by exact hst)]
    exact hr
  cases op with
  | goto next =>
    cases hp
    exact hg next hf.1 hf.2.2
  | check seen _ =>
    rw [perform, if_pos hs] at hp
    cases hp
    exact hg seen hf.1 hf.2.2.2
  | setFuture _ next =>
    rw [perform, setFutureState_of_stopped hs] at hp
    cases hp
    exact hg next hf.1 hf.2.2.2
  | setIdle _ unset =>
    rw [perform, if_neg (not_not.mpr hs)] at hp
    cases hp
    exact hg unset hf.2.1 hf.2.2.2.2
  | deliver next =>
    cases hp
    exact hg next hf.1 hf.2.2
  | loop =>
    have hwk : m.worker = .checking := hf
    have hlv := h.leaving
    rw [perform, if_pos hs] at hp
    cases hp
    by_cases hl : m.leaving = true <;> simp_all [remaining, Phase.rank]
  | actualizeFutureState =>
    have hwk : m.worker = .actualizing := hf
    rw [perform, actualizeFutureState, Option.some.injEq] at hp
    simp only [hs, Prod.mk.injEq] at hp
    rw [← hp.1]
    by_cases hl : m.leaving = true <;> simp [remaining, Phase.rank, hl, hwk]
  | wake =>
    rw [perform, Option.ite_none_right_eq_some] at hp
    cases hp.2
    have hwk : m.worker = .waiting := hf
    apply hg
    · simp [Leads, hwk, Phase.inside]
    · simp [hwk, Phase.rank]
  | back =>
    have hwk : m.worker = .returning := hf
    cases hp
    by_cases hl : m.leaving = true <;> simp [remaining, Phase.rank, hl, hwk]
  | escape =>
    cases hp
    simp at hesc

theorem step_remaining (h : Coherent m) (hst : m.futureState = .stopped)
    (hs : step m action = some (m', new))
    (hnew : ∀ e ∈ new, ¬(e = .restarted ∨ e = .escaped)) :
    remaining m' + (if action.isWork then 1 else 0) ≤ remaining m := by
  unfold step at hs
  rw [Option.ite_none_left_eq_some] at hs
  replace hs := hs.2
  cases action with
  | work _ =>
    obtain ⟨_,hop,hp⟩ := Option.bind_eq_some_iff.mp hs
    apply perform_remaining h hst (operation_fits hop) hp
    intro hmem
    exact hnew _ hmem (.inr rfl)
  | blockNotification | poolChanged | stop =>
    cases hs
    rw [setFutureState_of_stopped hst]
    exact Nat.le_refl _
  | addTask =>
    rw [Option.ite_none_left_eq_some] at hs
    cases hs.2
    exact Nat.le_refl _
  | addConsumer | removeConsumer =>
    rw [Option.ite_none_right_eq_some] at hs
    cases hs.2
    exact Nat.le_refl _
  | start =>
    rw [Option.ite_none_right_eq_some] at hs
    cases hs.2
    simp at hnew
  | join =>
    rw [Option.ite_none_right_eq_some] at hs
    cases hs.2
    by_cases hl : m.leaving = true <;>
      simp [remaining, hl, Phase.rank, Action.isWork]

theorem run_remaining {later : List Action} (h : Coherent m) (hst : m.futureState = .stopped)
    (hrun : run step later m = some (m', es)) (hes : ∀ e ∈ es, ¬(e = .restarted ∨ e = .escaped)) :
    m'.futureState = .stopped ∧ later.countP Action.isWork ≤ remaining m := by
  have hme := by
    apply countP_le_measure (fun m => Coherent m ∧ m.futureState = .stopped) remaining
      Action.isWork (fun e => e = .restarted ∨ e = .escaped) _ ⟨h,hst⟩ hrun hes
    intro m action m' new hm hs hnew
    refine ⟨⟨step_coherent hm.1 hs,?_⟩,step_remaining hm.1 hm.2 hs hnew⟩
    apply (step_effect hs).stays hm.2
    intro hmem
    exact hnew _ hmem (.inl rfl)
  obtain ⟨⟨-,hl⟩,_⟩ := hme
  exact ⟨hl,by omega⟩

def Left (m : Machine) : Prop := m.worker = .absent ∨ m.worker = .ended

def Ends (bound : ℕ) (later : List Action) (m' : Machine) : Prop :=
  later.countP Action.isWork ≤ bound ∧
    (Left m' ∨ ∃ answer next new, step m' (.work answer) = some (next, new) ∧ .escaped ∉ new)

theorem step_ready (hs : m.futureState = .stopped) (hcr : m.worker ≠ .crashed) :
    Left m ∨ ∃ ans next new, step m (.work ans) = some (next, new) ∧ .escaped ∉ new := by
  by_cases hl : Left m
  · exact .inl hl
  · right
    obtain ⟨habs,hend⟩ := not_or.mp hl
    obtain ⟨ans,op,hop,_⟩ := operation_ready m.consumers ⟨habs,hend,hcr⟩
    refine ⟨ans,?_⟩
    rw [step, if_neg hcr]
    simp only [hop, Option.bind_some]
    cases op <;> simp_all [perform, actualizeFutureState, observerEvents]

/-- In every run that no exception takes the thread out of: once stop is
requested the request stays until the next start; a thread that has left is
in the stopped state and the observer was removed as often as added; no
consumer is given blocks after the thread has seen the request; and after the
request the thread comes to its end. -/
theorem stopRequest_final {actions : List Action}
    (hrun : run step actions Machine.initial = some (m, es)) (hescaped : .escaped ∉ es) :
    (Unanswered .stopRequested .restarted es → m.futureState = .stopped) ∧
    (Left m → m.currentState = .stopped ∧ es.count .attached = es.count .detached) ∧
    NeverWhile (Unanswered .seen .restarted) .delivered es ∧
    (m.futureState = .stopped → ∀ later m' es', run step later m = some (m', es') →
      .restarted ∉ es' → .escaped ∉ es' → Ends (remaining m) later m') := by
  have hord : Orderly es m :=
    run_invariant Orderly (fun h hst => step_orderly h hst) initial_orderly hrun
  refine ⟨hord.asked,?_,hord.delivers,?_⟩
  · intro hl
    have hs := (hord.coherent.left hl).1
    have hb := hord.balance
    rw [observing, if_pos hs, Nat.add_zero] at hb
    exact ⟨hs,hb⟩
  · intro hs later m' es' hlat hr hescaped'
    have hnew : ∀ e ∈ es', ¬(e = .restarted ∨ e = .escaped) := by
      rintro e he (rfl | rfl)
      · exact hr he
      · exact hescaped' he
    obtain ⟨hfut,hle⟩ := run_remaining hord.coherent hs hlat hnew
    have hla : Orderly (es ++ es') m' :=
      run_invariant_after (fun h hst => step_orderly h hst) hord hlat
    refine ⟨hle,step_ready hfut ?_⟩
    intro hcr
    rcases List.mem_append.mp (hla.crashed hcr) with hmem | hmem
    · exact hescaped hmem
    · exact hescaped' hmem

def stoppedDuringFetch : List Action :=
  [.addConsumer, .start] ++ worked 3 ++ [.stop, .work (.blocks 1)] ++ worked 8

theorem stopRequest_final_sample :
    ∃ m es, run step stoppedDuringFetch Machine.initial = some (m, es) ∧ Left m ∧
      m.currentState = .stopped ∧ es.count .attached = es.count .detached := by
  have hrun : run step stoppedDuringFetch Machine.initial =
      some (⟨.stopped, .stopped, 1, 0, .ended, true⟩,
        [.restarted, .attached, .started, .stopRequested, .seen, .seen, .seen, .seen,
          .detached]) := by decide
  have hl : Left ⟨.stopped, .stopped, 1, 0, .ended, true⟩ := .inr rfl
  refine ⟨_,_,hrun,hl,?_⟩
  exact (stopRequest_final hrun (by decide)).2.1 hl

def stoppedDuringPool : List Action :=
  [.addConsumer, .start] ++ worked 3 ++ [.work (.blocks 0)] ++ worked 12 ++
    [.stop, .work .throws]

/-- Stop is requested while a consumer takes pool transactions, and one of its
containers refuses a transaction. Nothing catches the exception: the process
ends with the thread in the pool state and the observer still added. -/
theorem stopRequest_escaped : ∃ m es, run step stoppedDuringPool Machine.initial = some (m, es) ∧
      Unanswered .stopRequested .restarted es ∧ m.currentState = .poolSync ∧
      es.count .attached ≠ es.count .detached ∧ ∀ action, step m action = none := by
  have hrun : run step stoppedDuringPool Machine.initial =
      some (⟨.poolSync, .stopped, 1, 0, .crashed, false⟩,
        [.restarted, .attached, .started, .stopRequested, .escaped]) := by decide
  refine ⟨_,_,hrun,⟨[.restarted, .attached, .started],[.escaped],rfl,by decide⟩,rfl,by decide,?_⟩
  intro action
  exact if_pos rfl

end Stopping

section Exceptions

variable {m m' : Machine} {op : Operation} {action : Action} {es new : List Event}
  {cs : ℕ} {p : Phase} {a : Answer}

def unguarded : Phase → Bool
  | .startingBlocks | .startingPool | .queryingUnion | .queryingIntersection => true
  | .poolUpdating _ | .poolDone => true
  | .failed site => !site.guarded
  | _ => false

def targets : Operation → List Phase
  | .goto next | .setFuture _ next | .deliver next => [next]
  | .check seen unseen => [seen, unseen]
  | .setIdle set unset => [set, unset]
  | _ => []

structure Text (p : Phase) (a : Answer) (op : Operation) : Prop where
  escapes : op = .escape ↔ a = .throws ∧ unguarded p = true
  waits : .waiting ∉ targets op

theorem poolOperation_text (h : poolOperation cs p a = some op) : Text p a op := by
  unfold poolOperation at h
  split at h
  all_goals cases h
  all_goals constructor <;> simp [unguarded, targets]

theorem operation_text (h : operation cs p a = some op) : Text p a op := by
  unfold operation at h
  split at h
  case h_33 | h_34 | h_35 =>
    rename_i site
    cases h
    cases site <;> constructor <;>
      simp [unguarded, targets, Site.guarded, Site.unset, Site.reported]
  case h_36 => exact poolOperation_text h
  all_goals cases h
  all_goals constructor <;> simp [unguarded, targets]

theorem perform_escaped (h : perform m op = some (m', new)) : .escaped ∈ new ↔ op = .escape := by
  cases op with
  | goto | setFuture | deliver | back | escape =>
    cases h
    simp
  | check _ _ =>
    rw [perform] at h
    split_ifs at h <;> cases h <;> simp
  | setIdle _ _ =>
    rw [perform] at h
    split_ifs at h <;> cases h <;> simp
  | loop =>
    rw [perform] at h
    split_ifs at h <;> cases h <;> simp
  | wake =>
    rw [perform, Option.ite_none_right_eq_some] at h
    cases h.2
    simp
  | actualizeFutureState =>
    have hev : .escaped ∉ observerEvents m.currentState m.futureState := by
      intro hmem
      simpa using mem_observerEvents hmem
    obtain rfl : (SyncThread.actualizeFutureState m).2 = new :=
      congrArg Prod.snd (Option.some.inj h)
    cases hfut : m.futureState <;> simp_all [SyncThread.actualizeFutureState]

def Contained (m : Machine) : Action → Prop
  | .work .throws => unguarded m.worker = false
  | _ => True

theorem contained_work : Contained m (.work a) ↔ ¬(a = .throws ∧ unguarded m.worker = true) := by
  cases a <;> simp [Contained]

theorem step_escaped (h : step m action = some (m', new)) :
    .escaped ∉ new ↔ Contained m action := by
  unfold step at h
  rw [Option.ite_none_left_eq_some] at h
  obtain ⟨-,h⟩ := h
  cases action with
  | work _ =>
    obtain ⟨_,hop,hp⟩ := Option.bind_eq_some_iff.mp h
    rw [perform_escaped hp, (operation_text hop).escapes, contained_work]
  | blockNotification | poolChanged | stop =>
    cases h
    simp [Contained]
  | addTask =>
    rw [Option.ite_none_left_eq_some] at h
    cases h.2
    simp [Contained]
  | addConsumer | removeConsumer | start | join =>
    rw [Option.ite_none_right_eq_some] at h
    cases h.2
    simp [Contained]

def ContainedRun : Machine → List Action → Prop
  | _, [] => True
  | m, action :: rest =>
    Contained m action ∧ ∀ m' new, step m action = some (m', new) → ContainedRun m' rest

theorem run_escaped {acts : List Action} (hrun : run step acts m = some (m', es)) :
    .escaped ∉ es ↔ ContainedRun m acts := by
  induction acts generalizing m es with
  | nil =>
    cases hrun
    simp [ContainedRun]
  | cons _ _ ih =>
    obtain ⟨mid,new,_,hs,hlat,rfl⟩ := run_cons hrun
    rw [List.mem_append, not_or, step_escaped hs, ih hlat, ContainedRun]
    apply and_congr_right
    intro _
    constructor
    · intro hr m' new' hs'
      rw [hs] at hs'
      cases hs'
      exact hr
    · intro hr
      exact hr mid new hs

def Resting (m : Machine) : Prop := m.worker = .waiting → m.currentState = .idle

theorem perform_resting (hwts : .waiting ∉ targets op)
    (h : perform m op = some (m', new)) : Resting m' := by
  cases op with
  | goto _ =>
    cases h
    intro hwk
    exact absurd hwk.symm (by simpa [targets] using hwts)
  | setFuture _ _ =>
    cases h
    intro hwk
    exact absurd hwk.symm (by simpa [targets] using hwts)
  | deliver _ =>
    cases h
    intro hwk
    exact absurd hwk.symm (by simpa [targets] using hwts)
  | check _ _ =>
    simp only [targets, List.mem_cons, List.not_mem_nil, or_false, not_or] at hwts
    rw [perform] at h
    split_ifs at h <;> cases h <;> intro hwk
    · exact absurd hwk.symm hwts.1
    · exact absurd hwk.symm hwts.2
  | setIdle _ _ =>
    simp only [targets, List.mem_cons, List.not_mem_nil, or_false, not_or] at hwts
    rw [perform] at h
    split_ifs at h <;> cases h <;> intro hwk
    · exact absurd hwk.symm hwts.1
    · exact absurd hwk.symm hwts.2
  | loop =>
    rw [perform] at h
    split_ifs at h <;> cases h <;> intro hwk <;> cases hwk
  | wake =>
    rw [perform, Option.ite_none_right_eq_some] at h
    cases h.2
    intro hwk
    cases hwk
  | back =>
    cases h
    intro hwk
    dsimp only at hwk
    split_ifs at hwk
  | escape =>
    cases h
    intro hwk
    cases hwk
  | actualizeFutureState =>
    obtain rfl : (SyncThread.actualizeFutureState m).1 = m' := congrArg Prod.fst (Option.some.inj h)
    cases hfut : m.futureState <;> simp [SyncThread.actualizeFutureState, Resting, hfut]

theorem step_resting (hr : Resting m) (h : step m action = some (m', new)) : Resting m' := by
  unfold step at h
  rw [Option.ite_none_left_eq_some] at h
  obtain ⟨-,h⟩ := h
  have hset : ∀ s, Resting (m.setFutureState s) := by
    intro s
    obtain ⟨hcur,hwk,-⟩ := setFutureState_frame m s
    rw [Resting, hcur, hwk]
    exact hr
  cases action with
  | work _ =>
    obtain ⟨_,hop,hp⟩ := Option.bind_eq_some_iff.mp h
    exact perform_resting (operation_text hop).waits hp
  | blockNotification | poolChanged | stop =>
    cases h
    exact hset _
  | addTask =>
    rw [Option.ite_none_left_eq_some] at h
    cases h.2
    exact hr
  | addConsumer | removeConsumer =>
    rw [Option.ite_none_right_eq_some] at h
    cases h.2
    exact hr
  | start | join =>
    rw [Option.ite_none_right_eq_some] at h
    cases h.2
    intro hwk
    cases hwk

def Steady (m : Machine) : Prop :=
  (m.worker = .waiting ∧ m.currentState = .idle) ∨ (Left m ∧ m.currentState = .stopped) ∨
    m.worker ≠ .waiting ∧ ¬ Left m ∧
      ∃ answer next new, step m (.work answer) = some (next, new) ∧ .escaped ∉ new

theorem steady_of_resting (hr : Resting m) (hcoh : Coherent m)
    (hcr : m.worker ≠ .crashed) : Steady m := by
  by_cases hw : m.worker = .waiting
  · exact .inl ⟨hw,hr hw⟩
  · by_cases hl : Left m
    · exact .inr (.inl ⟨hl,(hcoh.left hl).1⟩)
    · right; right
      obtain ⟨habs,hend⟩ := not_or.mp hl
      obtain ⟨ans,op,hop,hne⟩ := operation_ready m.consumers ⟨habs,hend,hcr⟩
      have hf := operation_fits hop
      have hp : ∃ next new, perform m op = some (next, new) := by
        cases op with
        | wake => exact absurd hf hw
        | check | setIdle | loop =>
          rw [perform]
          split_ifs <;> exact ⟨_,_,rfl⟩
        | _ => exact ⟨_,_,rfl⟩
      obtain ⟨next,new,hp⟩ := hp
      refine ⟨hw,hl,ans,next,new,?_,?_⟩
      · rw [step, if_neg hcr]
        simp [hop, hp]
      · rw [perform_escaped hp]
        exact hne

/-- In a run from the start no exception leaves the working procedure, and the
synchronizer is idle, stopped or goes on, exactly if no call outside of the
try block throws. -/
theorem exceptions_contained_iff {actions : List Action}
    (hrun : run step actions Machine.initial = some (m, es)) :
    (.escaped ∉ es ∧ m.worker ≠ .crashed ∧ Steady m) ↔ ContainedRun Machine.initial actions := by
  rw [← run_escaped hrun]
  constructor
  · intro h
    exact h.1
  · intro hesc
    have hord : Orderly es m :=
      run_invariant Orderly (fun h hs => step_orderly h hs) initial_orderly hrun
    have hr : Resting m := run_invariant (fun _ m => Resting m) (fun h hs => step_resting h hs)
        (by simp [Resting, Machine.initial]) hrun
    have hcr : m.worker ≠ .crashed := fun hcr => hesc (hord.crashed hcr)
    exact ⟨hesc,hcr,steady_of_resting hr hord.coherent hcr⟩

def failedDuringFetch : List Action :=
  [.addConsumer, .start] ++ worked 3 ++ [.work .error] ++ worked 5

theorem exceptions_contained_sample :
    ∃ m es, run step failedDuringFetch Machine.initial = some (m, es) ∧
      ((.escaped ∉ es ∧ m.worker ≠ .crashed ∧ Steady m) ↔
        ContainedRun Machine.initial failedDuringFetch) ∧ m.worker = .waiting := by
  have hrun : run step failedDuringFetch Machine.initial =
      some (⟨.idle, .idle, 1, 0, .waiting, false⟩,
        [.restarted, .attached, .started, .failed, .waits]) := by decide
  exact ⟨_,_,hrun,exceptions_contained_iff hrun,rfl⟩

def refusedDuringPool : List Action :=
  [.addConsumer, .start] ++ worked 3 ++ [.work (.blocks 0)] ++ worked 12 ++ [.work .throws]

/-- A consumer that takes pool transactions throws, or the history of one does
before a request for blocks: the exception leaves the thread, after which
nothing runs any more. -/
theorem exceptions_escaped :
    (∃ m es, run step refusedDuringPool Machine.initial = some (m, es) ∧ .escaped ∈ es ∧
        m.worker = .crashed ∧ ∀ action, step m action = none) ∧
      ∃ m es, run step ([.addConsumer, .start] ++ worked 2 ++ [.work .throws])
          Machine.initial = some (m, es) ∧ .escaped ∈ es ∧ m.worker = .crashed ∧
        ∀ action, step m action = none := by
  have hp : run step refusedDuringPool Machine.initial =
      some (⟨.poolSync, .idle, 1, 0, .crashed, false⟩,
        [.restarted, .attached, .started, .escaped]) := by decide
  have hhis : run step ([.addConsumer, .start] ++ worked 2 ++ [.work .throws])
      Machine.initial = some (⟨.blockchainSync, .poolSync, 1, 0, .crashed, false⟩,
        [.restarted, .attached, .started, .escaped]) := by decide
  refine ⟨⟨_,_,hp,by decide,rfl,?_⟩,_,_,hhis,by decide,rfl,?_⟩
  · intro action
    exact if_pos rfl
  · intro action
    exact if_pos rfl

end Exceptions

end Orbis.SyncRuns
