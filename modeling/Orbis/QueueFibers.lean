import Mathlib.Tactic

/-!
# Fibers that wait for messages

A fiber that finds the queue empty clears the event and waits for it. Setting
the event moves all waiting fibers to the dispatcher, which resumes them in
that order while other fibers go on. A resumed fiber looks at the event and
not at the queue, so it may find the queue empty: after a stop, or when
another fiber was faster.
-/

set_option autoImplicit false

namespace Orbis.QueueFibers

variable {M : Type}

inductive Call where
  | front
  | pop
  deriving DecidableEq

/-- `waiters` is the list of the event, `resuming` the one of the dispatcher;
of a fiber only the call it is in matters. -/
structure MessageQueue (M : Type) where
  messageQueue : List M
  event : Bool
  stopped : Bool
  waiters : List Call
  resuming : List Call
  deriving DecidableEq

def MessageQueue.initial : MessageQueue M := ⟨[],false,false,[],[]⟩

inductive Outcome (M : Type) where
  | returned (message : M)
  | interrupted
  | suspended
  | emptyAccess
  | done
  deriving DecidableEq

inductive Act (M : Type) where
  | call (call : Call)
  | resume
  | push (message : M)
  | stop
  deriving DecidableEq

def setEvent (q : MessageQueue M) : MessageQueue M :=
  if q.event then q
  else { q with event := true, waiters := [], resuming := q.resuming ++ q.waiters }

def clearEvent (q : MessageQueue M) : MessageQueue M :=
  if q.event then { q with event := false, waiters := [] } else q

def access (call : Call) (q : MessageQueue M) : Outcome M × MessageQueue M :=
  match q.messageQueue, call with
  | [], _ => (.emptyAccess, q)
  | message :: _, .front => (.returned message, q)
  | message :: rest, .pop => (.returned message, { q with messageQueue := rest })

def awaitEvent (call : Call) (q : MessageQueue M) : Outcome M × MessageQueue M :=
  if q.event then access call q
  else (.suspended, { q with waiters := q.waiters ++ [call] })

def step (q : MessageQueue M) : Act M → Outcome M × MessageQueue M
  | .call call =>
    if q.messageQueue.isEmpty then
      if q.stopped then (.interrupted, q) else awaitEvent call (clearEvent q)
    else access call q
  | .resume =>
    match q.resuming with
    | [] => (.done, q)
    | call :: rest => awaitEvent call { q with resuming := rest }
  | .push message => (.done, setEvent { q with messageQueue := q.messageQueue ++ [message] })
  | .stop => (.done, setEvent { q with stopped := true })

/-- What is asked of a call of `front` or `pop`: a message from the front of
the queue, an exception after a stop, or a wait before one. -/
def Sound (q : MessageQueue M) (act : Act M) : Prop :=
  match (step q act).1 with
  | .returned message => q.messageQueue.head? = some message
  | .interrupted => q.messageQueue = [] ∧ q.stopped = true
  | .emptyAccess => False
  | .suspended => q.messageQueue = [] ∧ q.stopped = false
  | .done => True

def takesLast (call : Call) (q : MessageQueue M) : Prop :=
  call = .pop ∧ q.messageQueue.length = 1

/-- No stop while a fiber waits, and the last message is not taken while
another fiber is about to resume. -/
def Orderly (q : MessageQueue M) : Act M → Prop
  | .call call => takesLast call q → q.resuming = []
  | .resume => ∀ call rest, q.resuming = call :: rest → takesLast call q → rest = []
  | .push _ => True
  | .stop => q.waiters = []

structure Provided (q : MessageQueue M) : Prop where
  resuming : q.resuming ≠ [] → q.event = true ∧ q.messageQueue ≠ []
  waiters : q.waiters ≠ [] → q.event = false ∧ q.messageQueue = []

def Starved (q : MessageQueue M) : Prop :=
  q.event = true ∧ q.resuming ≠ [] ∧ q.messageQueue = []

inductive OrderlyRun : MessageQueue M → Prop
  | start : OrderlyRun .initial
  | step {q : MessageQueue M} {act : Act M} (run : OrderlyRun q) (orderly : Orderly q act) :
      OrderlyRun (step q act).2

variable {q : MessageQueue M}

theorem provided_initial : Provided (.initial : MessageQueue M) :=
  ⟨fun h => absurd rfl h,fun h => absurd rfl h⟩

theorem setEvent_provided (hw : q.event = true → q.waiters = [])
    (h : q.resuming ++ q.waiters ≠ [] → q.messageQueue ≠ []) : Provided (setEvent q) := by
  unfold setEvent
  cases hev : q.event with
  | true =>
    exact ⟨fun hne => ⟨hev,h (List.append_ne_nil_of_left_ne_nil hne _)⟩,
      fun hne => absurd (hw hev) hne⟩
  | false => exact ⟨fun hne => ⟨rfl,h hne⟩,fun hne => absurd rfl hne⟩

theorem access_returns (hne : q.messageQueue ≠ []) (call : Call) :
    ∃ message, q.messageQueue.head? = some message ∧ (access call q).1 = .returned message := by
  cases hm : q.messageQueue with
  | nil => exact absurd hm hne
  | cons _ _ => cases call <;> simp [access, hm]

theorem access_cases (hq : Provided q) (hne : q.messageQueue ≠ []) (call : Call) :
    (takesLast call q → q.resuming = []) ∧ Provided (access call q).2 ∨
      ¬ (takesLast call q → q.resuming = []) ∧ Starved (access call q).2 := by
  cases hm : q.messageQueue with
  | nil => exact absurd hm hne
  | cons _ rest =>
    cases call with
    | front => simp [access, hm, takesLast, hq]
    | pop =>
      have hl : takesLast .pop q ↔ rest = [] := by simp [takesLast, hm]
      simp only [access, hm, hl]
      by_cases hstv : rest = [] ∧ q.resuming ≠ []
      · exact .inr ⟨fun h => hstv.2 (h hstv.1),(hq.resuming hstv.2).1,hstv.2, hstv.1⟩
      · have hn : rest = [] → q.resuming = [] := by tauto
        refine .inl ⟨hn,fun h => ⟨(hq.resuming h).1,fun hr => h (hn hr)⟩,fun h => ?_⟩
        exact absurd (hq.waiters h).2 hne

theorem resumed_provided {call : Call} {rest : List Call} (hq : Provided q)
    (h : q.resuming = call :: rest) : q.messageQueue ≠ [] ∧ Provided { q with resuming := rest } ∧
      step q .resume = access call { q with resuming := rest } := by
  obtain ⟨hev,hne⟩ := hq.resuming (by simp [h])
  exact ⟨hne,⟨fun _ => ⟨hev,hne⟩,hq.waiters⟩,by simp [step, h, awaitEvent, hev]⟩

theorem call_suspended (hemp : q.messageQueue = []) (hs : q.stopped = false)
    (call : Call) : step q (.call call) = (.suspended, { q with
      event := false
      waiters := (if q.event then [] else q.waiters) ++ [call] }) := by
  cases hev : q.event <;> simp [step, hemp, hs, awaitEvent, clearEvent, hev]

theorem call_access (hne : q.messageQueue ≠ []) (call : Call) :
    step q (.call call) = access call q := by
  simp [step, hne]

theorem step_sound (hq : Provided q) (act : Act M) : Sound q act := by
  unfold Sound
  cases act with
  | call call =>
    by_cases hemp : q.messageQueue = []
    · cases hs : q.stopped with
      | true => simp [step, hemp, hs]
      | false => simp [call_suspended hemp hs, hemp, hs]
    · obtain ⟨message,hh,ha⟩ := access_returns hemp call
      rw [call_access hemp, ha]
      exact hh
  | resume =>
    cases hrsm : q.resuming with
    | nil => simp [step, hrsm]
    | cons call rest =>
      obtain ⟨hne,-,hst⟩ := resumed_provided hq hrsm
      obtain ⟨message,hh,ha⟩ :=
        access_returns (show ({ q with resuming := rest }).messageQueue ≠ [] from hne) call
      rw [hst, ha]
      exact hh
  | push _ => trivial
  | stop => trivial

theorem step_cases (hq : Provided q) (act : Act M) :
    Orderly q act ∧ Provided (step q act).2 ∨ ¬ Orderly q act ∧ Starved (step q act).2 := by
  cases act with
  | call call =>
    by_cases hemp : q.messageQueue = []
    · have hn : q.resuming = [] := by
        by_contra h
        exact (hq.resuming h).2 hemp
      refine .inl ⟨fun _ => hn,?_⟩
      cases hs : q.stopped with
      | true => simpa [step, hemp, hs] using hq
      | false =>
        rw [call_suspended hemp hs]
        exact ⟨fun h => absurd hn h,fun _ => ⟨rfl,hemp⟩⟩
    · rw [call_access hemp]
      exact access_cases hq hemp call
  | resume =>
    cases hrsm : q.resuming with
    | nil => exact .inl (by simpa [step, hrsm, Orderly] using hq)
    | cons call _ =>
      obtain ⟨hne,hp,hst⟩ := resumed_provided hq hrsm
      rw [hst]
      simpa [Orderly, hrsm, takesLast] using access_cases hp hne call
  | push _ =>
    refine .inl ⟨trivial,setEvent_provided (fun hev => ?_) (fun _ => by simp)⟩
    by_contra h
    exact absurd hev (by simp [(hq.waiters h).1])
  | stop =>
    by_cases hw : q.waiters = []
    · refine .inl ⟨hw,setEvent_provided (fun _ => hw) ?_⟩
      intro hne
      exact (hq.resuming (by simpa [hw] using hne)).2
    · obtain ⟨hev,hemp⟩ := hq.waiters hw
      exact .inr ⟨hw,by simp [step, setEvent, hev, hemp, hw, Starved]⟩

theorem OrderlyRun.provided (hrun : OrderlyRun q) : Provided q := by
  induction hrun with
  | start => exact provided_initial
  | step _ orderly ih =>
    rcases step_cases ih _ with h | h
    · exact h.2
    · exact absurd orderly h.1

theorem Starved.resume (h : Starved q) : (step q .resume).1 = .emptyAccess := by
  obtain ⟨hev,hne,hemp⟩ := h
  cases hrsm : q.resuming with
  | nil => exact absurd hrsm hne
  | cons _ _ => simp [step, hrsm, awaitEvent, hev, access, hemp]

/-- In every run that is orderly so far, no call finds the queue empty, calls
leave by an exception after a stop and wait only before one, and the next step
is orderly exactly if it does not lead a resumed fiber to the empty queue. -/
theorem orderly_run_sound (hrun : OrderlyRun q) (act : Act M) :
    Sound q act ∧ (Orderly q act ↔ (step (step q act).2 .resume).1 ≠ .emptyAccess) := by
  refine ⟨step_sound hrun.provided act,?_⟩
  rcases step_cases hrun.provided act with ⟨hord,hp⟩ | ⟨hnot,hstv⟩
  · refine ⟨fun _ hemp => ?_,fun _ => hord⟩
    have hsd := step_sound hp .resume
    rw [Sound, hemp] at hsd
    exact hsd
  · exact ⟨fun h => absurd h hnot,fun h => absurd hstv.resume h⟩

theorem orderly_run_sound_sample :
    Sound (step (.initial : MessageQueue ℕ) (.call .front)).2 (.push 7) ∧
      (Orderly (step (.initial : MessageQueue ℕ) (.call .front)).2 (.push 7) ↔
        (step (step (step .initial (.call .front)).2 (.push 7)).2 .resume).1 ≠ .emptyAccess) :=
  orderly_run_sound (.step .start (show Orderly _ (.call .front) from fun _ => rfl)) _

/-- A stop resumes a fiber that waits for its first message, and the second of
two fibers that wait for one message finds it taken. -/
theorem resumed_fiber_finds_nothing :
    (step (step (step (.initial : MessageQueue ℕ) (.call .front)).2 .stop).2 .resume).1 =
      .emptyAccess ∧
    (step (step (step (step (step (.initial : MessageQueue ℕ) (.call .pop)).2 (.call .pop)).2
      (.push 7)).2 .resume).2 .resume).1 = .emptyAccess := ⟨rfl,rfl⟩

end Orbis.QueueFibers
