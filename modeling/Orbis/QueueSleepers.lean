import Orbis.WorkQueue

/-!
# Threads that sleep at a bounded queue

The machine of a bounded queue says when a thread may go on. Here a thread
that may not go on sleeps on a condition variable until it is notified: a push
wakes one worker, a pop wakes the producer, closing wakes all of them, and a
thread may also wake for no reason. No wakeup is lost. What can stop the
threads for ever is a producer before a full queue whose workers have all
ended, and we say for which items that cannot happen.
-/

set_option autoImplicit false

namespace Orbis.QueueSleepers

open Relation ListCursor WorkQueue

variable {π α β ε : Type} {base : State π α β ε} {a : α} {p : π}

variable {P : Program π α β ε} {items : List α} {n : ℕ}

section Machine

def total (f : Worker α β ε → ℕ) (workers : List (Worker α β ε)) : ℕ := (workers.map f).sum

def waits : Worker α β ε → ℕ
  | .waiting => 1
  | _ => 0

structure Sleepers (π α β ε : Type) where
  base : State π α β ε
  asleep : ℕ
  stalled : Bool

def Sleepers.start (p : π) (n : ℕ) : Sleepers π α β ε := ⟨WorkQueue.start p n,0,false⟩

inductive DueStep (P : Program π α β ε) (s : Sleepers π α β ε) : Sleepers π α β ε → Prop
  | skip {p q : π} (awake : s.stalled = false) (at_ : s.base.producer = some p)
      (next : P.next s.base.flag p = .skip q) :
      DueStep P s { s with base := { s.base with producer := some q } }
  | push {p q : π} {a : α} (awake : s.stalled = false) (at_ : s.base.producer = some p)
      (next : P.next s.base.flag p = .push a q) (isOpen : s.base.closed = false)
      (space : s.base.queue.length < P.capacity) :
      DueStep P s
        { s with
          base := { s.base with producer := some q, queue := s.base.queue ++ [a] }
          asleep := s.asleep - 1 }
  | lose {p q : π} {a : α} (awake : s.stalled = false) (at_ : s.base.producer = some p)
      (next : P.next s.base.flag p = .push a q) (isClosed : s.base.closed = true) :
      DueStep P s { s with base := { s.base with producer := some q } }
  | stall {p q : π} {a : α} (awake : s.stalled = false) (at_ : s.base.producer = some p)
      (next : P.next s.base.flag p = .push a q) (isOpen : s.base.closed = false)
      (full : P.capacity ≤ s.base.queue.length) : DueStep P s { s with stalled := true }
  | close {p : π} (awake : s.stalled = false) (at_ : s.base.producer = some p)
      (next : P.next s.base.flag p = .close) :
      DueStep P s ⟨{ s.base with producer := none, closed := true },0,false⟩
  | enter {c : Cursor (Worker α β ε)} (within : c.list = s.base.workers)
      (item : c.item = .ready) (lowered : s.base.flag = false) :
      DueStep P s { s with base := s.base.become c .waiting }
  | leave {c : Cursor (Worker α β ε)} (within : c.list = s.base.workers)
      (item : c.item = .ready) (raised : s.base.flag = true) :
      DueStep P s { s with base := s.base.become c (.finished none) }
  | pop {c : Cursor (Worker α β ε)} {a : α} {queue : List α} (within : c.list = s.base.workers)
      (item : c.item = .waiting) (awake : s.asleep < total waits s.base.workers)
      (front : s.base.queue = a :: queue) :
      DueStep P s
        { s with
          base := { s.base.become c (.holding a) with queue := queue }
          stalled := false }
  | exhaust {c : Cursor (Worker α β ε)} (within : c.list = s.base.workers)
      (item : c.item = .waiting) (awake : s.asleep < total waits s.base.workers)
      (empty : s.base.queue = []) (isClosed : s.base.closed = true) :
      DueStep P s { s with base := s.base.become c (.finished none) }
  | sleep (awake : s.asleep < total waits s.base.workers) (empty : s.base.queue = [])
      (isOpen : s.base.closed = false) : DueStep P s { s with asleep := s.asleep + 1 }
  | succeed {c : Cursor (Worker α β ε)} {a : α} {b : β} (within : c.list = s.base.workers)
      (item : c.item = .holding a) (outcome : P.work a (.ok b)) :
      DueStep P s { s with base := s.base.become c (.appending a b) }
  | append {c : Cursor (Worker α β ε)} {a : α} {b : β} (within : c.list = s.base.workers)
      (item : c.item = .appending a b) :
      DueStep P s
        { s with
          base := { s.base.become c .ready with collected := s.base.collected ++ [(a, b)] } }
  | fail {c : Cursor (Worker α β ε)} {a : α} {e : ε} (within : c.list = s.base.workers)
      (item : c.item = .holding a) (outcome : P.work a (.error e)) :
      DueStep P s
        { s with
          base := { s.base.become c (.finished (some e)) with
            flag := s.base.flag || P.raises e } }

inductive SleepStep (P : Program π α β ε) (s : Sleepers π α β ε) : Sleepers π α β ε → Prop
  | due {t : Sleepers π α β ε} (step : DueStep P s t) : SleepStep P s t
  | rouse (asleep : s.stalled = true) : SleepStep P s { s with stalled := false }
  | stir (asleep : 0 < s.asleep) : SleepStep P s { s with asleep := s.asleep - 1 }

def SleepReaches (P : Program π α β ε) : Sleepers π α β ε → Sleepers π α β ε → Prop :=
  ReflTransGen (SleepStep P)

def DueReaches (P : Program π α β ε) : Sleepers π α β ε → Sleepers π α β ε → Prop :=
  ReflTransGen (DueStep P)

def Ended (s : Sleepers π α β ε) : Prop :=
  s.base.producer = none ∧ ∀ w ∈ s.base.workers, ∃ failure, w = .finished failure

variable {s t : Sleepers π α β ε}

theorem due_refines (hs : DueStep P s t) : Step P s.base t.base ∨ t.base = s.base := by
  cases hs with
  | skip _ at_ next => exact .inl (.skip at_ next)
  | push _ at_ next isOpen space => exact .inl (.push at_ next isOpen space)
  | lose _ at_ next cl => exact .inl (.lose at_ next cl)
  | close _ at_ next => exact .inl (.close at_ next)
  | enter within item lowered => exact .inl (.enter within item lowered)
  | leave within item raised => exact .inl (.leave within item raised)
  | pop within item _ front => exact .inl (.pop within item front)
  | exhaust within item _ empty cl => exact .inl (.exhaust within item empty cl)
  | succeed within item outcome => exact .inl (.succeed within item outcome)
  | append within item => exact .inl (.append within item)
  | fail within item outcome => exact .inl (.fail within item outcome)
  | stall | sleep => exact .inr rfl

theorem step_refines (hs : SleepStep P s t) : Step P s.base t.base ∨ t.base = s.base := by
  cases hs with
  | due step => exact due_refines step
  | rouse | stir => exact .inr rfl

theorem DueReaches.reaches (hr : DueReaches P s t) : SleepReaches P s t :=
  ReflTransGen.mono (fun _ _ => .due) _ _ hr

end Machine

section Counts

variable (f : Worker α β ε → ℕ) {workers : List (Worker α β ε)}

theorem total_list (c : Cursor (Worker α β ε)) : total f c.list = f c.item + total f c.erase := by
  rw [total, (c.perm_list.map f).sum_eq, List.map_cons, List.sum_cons]
  rfl

theorem total_replace (c : Cursor (Worker α β ε)) (w : Worker α β ε) :
    total f (c.replace w) = f w + total f c.erase :=
  total_list f ⟨c.before,w,c.after⟩

theorem exists_cursor {w : Worker α β ε} (hw : w ∈ workers) :
    ∃ c : Cursor (Worker α β ε), c.list = workers ∧ c.item = w := by
  obtain ⟨pre,after,rfl⟩ := List.append_of_mem hw
  exact ⟨⟨pre,w,after⟩,rfl,rfl⟩

theorem total_pos (h : 0 < total f workers) : ∃ w ∈ workers, 0 < f w := by
  by_contra hno
  have hz : ∀ n ∈ workers.map f, n = 0 := by
    intro n hn
    obtain ⟨w,hw,rfl⟩ := List.mem_map.mp hn
    by_contra hne
    exact hno ⟨w,hw,Nat.pos_of_ne_zero hne⟩
  rw [total, List.sum_eq_zero hz] at h
  exact Nat.lt_irrefl 0 h

end Counts

section Wakeups

variable {s t : Sleepers π α β ε}

def Heeds (P : Program π α β ε) : Prop :=
  ∀ p, P.next true p = P.next false p ∨
    (P.next true p = .close ∧ ∃ q, P.next false p = .skip q)

theorem Heeds.push (hheeds : Heeds P) {flag : Bool} {p q : π} :
    P.next flag p = .push a q ↔ P.next false p = .push a q := by
  cases flag with
  | false => exact Iff.rfl
  | true =>
    rcases hheeds p with heq | ⟨hc,next,hs⟩
    · rw [heq]
    · simp [hc, hs]

structure Sound (P : Program π α β ε) (s : Sleepers π α β ε) : Prop where
  asleep : s.asleep ≤ total waits s.base.workers
  served : 0 < s.asleep →
    s.base.closed = false ∧ s.base.queue.length + s.asleep ≤ total waits s.base.workers
  stalled : s.stalled = true → ∃ p q a, s.base.producer = some p ∧
    P.next false p = .push a q ∧ s.base.closed = false ∧ P.capacity ≤ s.base.queue.length
  closed : s.base.closed = true ↔ s.base.producer = none

theorem start_sound (p : π) (n : ℕ) : Sound P (Sleepers.start p n : Sleepers π α β ε) := by
  constructor
  · exact Nat.zero_le _
  · intro h
    exact absurd h (Nat.lt_irrefl 0)
  · intro h
    cases h
  · simp [Sleepers.start, WorkQueue.start]

theorem sound_become (h : Sound P s) {c : Cursor (Worker α β ε)} {v w : Worker α β ε}
    (hl : c.list = s.base.workers) (hi : c.item = v) (hv : waits v = 0)
    (hwks : base.workers = c.replace w) (hqu : base.queue = s.base.queue)
    (hcl : base.closed = s.base.closed) (hp : base.producer = s.base.producer) :
    Sound P { s with base := base } := by
  have hle : total waits s.base.workers ≤ total waits base.workers := by
    rw [← hl, hwks, total_list, total_replace, hi, hv]
    omega
  constructor
  · exact h.asleep.trans hle
  · intro hpos
    dsimp only
    rw [hcl, hqu]
    exact ⟨(h.served hpos).1,(h.served hpos).2.trans hle⟩
  · dsimp only
    rw [hp, hcl, hqu]
    exact h.stalled
  · dsimp only
    rw [hcl, hp]
    exact h.closed

theorem due_sound (hheeds : Heeds P) (hs : DueStep P s t) (h : Sound P s) : Sound P t := by
  have ho : ∀ p, s.base.producer = some p → s.base.closed = false := by
    intro p hp
    rw [← Bool.not_eq_true, h.closed, hp]
    simp
  cases hs with
  | skip awake at_ _ =>
    refine ⟨h.asleep,h.served,?_,?_⟩
    · simp [awake]
    · simp [ho _ at_]
  | push awake _ _ isOpen _ =>
    refine ⟨?_,?_,?_,?_⟩
    · exact (Nat.sub_le _ _).trans h.asleep
    · intro hpos
      dsimp only at hpos ⊢
      have hsrv := h.served (by omega)
      refine ⟨isOpen,?_⟩
      rw [List.length_append, List.length_singleton]
      omega
    · simp [awake]
    · simp [isOpen]
  | lose _ at_ _ cl =>
    rw [ho _ at_] at cl
    cases cl
  | stall _ at_ next isOpen full =>
    exact ⟨h.asleep,h.served,fun _ => ⟨_,_,_,at_,hheeds.push.mp next,isOpen,full⟩,h.closed⟩
  | close _ _ _ =>
    refine ⟨Nat.zero_le _,?_,?_,?_⟩
    · intro hpos
      exact absurd hpos (Nat.lt_irrefl 0)
    · simp
    · simp
  | enter within item _ => exact sound_become h within item rfl rfl rfl rfl rfl
  | leave within item _ => exact sound_become h within item rfl rfl rfl rfl rfl
  | @pop c a queue within item _ front =>
    have hl := total_list waits c
    have hr := total_replace waits c (.holding a)
    rw [within] at hl
    rw [item] at hl
    simp only [waits] at hl hr
    refine ⟨?_,?_,?_,h.closed⟩
    · show s.asleep ≤ total waits (c.replace (.holding a))
      omega
    · intro hpos
      have hsrv := h.served hpos
      rw [front, List.length_cons] at hsrv
      refine ⟨hsrv.1,?_⟩
      show queue.length + s.asleep ≤ total waits (c.replace (.holding a))
      omega
    · simp
  | @exhaust c within item _ _ cl =>
    have hl := total_list waits c
    have hr := total_replace waits c (.finished none)
    rw [within, item] at hl
    simp only [waits] at hl hr
    refine ⟨?_,?_,h.stalled,h.closed⟩
    · show s.asleep ≤ total waits (c.replace (.finished none))
      omega
    · intro hpos
      have hsrv := h.served hpos
      rw [cl] at hsrv
      cases hsrv.1
  | sleep awake empty isOpen =>
    refine ⟨awake,?_,h.stalled,h.closed⟩
    intro _
    refine ⟨isOpen,?_⟩
    show s.base.queue.length + (s.asleep + 1) ≤ total waits s.base.workers
    rw [empty, List.length_nil]
    omega
  | succeed within item _ => exact sound_become h within item rfl rfl rfl rfl rfl
  | append within item => exact sound_become h within item rfl rfl rfl rfl rfl
  | fail within item _ => exact sound_become h within item rfl rfl rfl rfl rfl

theorem step_sound (hheeds : Heeds P) (hs : SleepStep P s t) (h : Sound P s) : Sound P t := by
  cases hs with
  | due step => exact due_sound hheeds step h
  | rouse asleep => exact ⟨h.asleep,h.served,by simp,h.closed⟩
  | stir asleep =>
    refine ⟨(Nat.sub_le _ _).trans h.asleep,?_,h.stalled,h.closed⟩
    intro hpos
    have hsrv := h.served asleep
    refine ⟨hsrv.1,?_⟩
    show s.base.queue.length + (s.asleep - 1) ≤ total waits s.base.workers
    omega

end Wakeups

section Tally

variable {s s' : State π α β ε} {c : Cursor (Worker α β ε)} {v w : Worker α β ε}
  {failed : Multiset α} {taken : List α}

def fails : Worker α β ε → ℕ
  | .finished (some _) => 1
  | _ => 0

def CanEnd (P : Program π α β ε) (n : ℕ) (taken : List α) : Prop :=
  (∃ a ∈ taken, ∃ e, P.work a (.error e) ∧ P.raises e = true) ∨
    ∃ failed : Multiset α, failed ≤ taken ∧ failed.card = n ∧ ∀ a ∈ failed, ∃ e, P.work a (.error e)

def Fits (P : Program π α β ε) (n : ℕ) (items : List α) : Prop :=
  ∀ taken rest, items = taken ++ rest → CanEnd P n taken → rest.length ≤ P.capacity

structure Tally (P : Program π α β ε) (items : List α) (n : ℕ) (s : State π α β ε)
    (taken : List α) (failed : Multiset α) : Prop where
  staffed : s.workers.length = n
  closed : s.closed = true ↔ s.producer = none
  ahead : ∀ p, s.producer = some p →
    ∃ rest, Produces P p rest ∧ items = taken ++ (s.queue ++ rest)
  held : failed + heldAll s.workers ≤ taken
  card : failed.card = total fails s.workers
  failing : ∀ a ∈ failed, ∃ e, P.work a (.error e)
  raised : s.flag = true → ∃ a ∈ taken, ∃ e, P.work a (.error e) ∧ P.raises e = true
  left : Worker.finished none ∈ s.workers → s.flag = true ∨ s.closed = true

theorem start_tally (hp : Produces P p items) (n : ℕ) :
    Tally P items n (start p n : State π α β ε) [] 0 := by
  have hh : heldAll (List.replicate n (Worker.ready : Worker α β ε)) = 0 := by
    simp [heldAll, held]
  have hfls : total fails (List.replicate n (Worker.ready : Worker α β ε)) = 0 := by
    simp [total, fails]
  constructor
  · exact List.length_replicate
  · simp [start]
  · intro q hq
    obtain rfl : p = q := Option.some.inj hq
    exact ⟨items,hp,rfl⟩
  · simp [start, hh]
  · simp [start, hfls]
  · simp
  · simp [start]
  · simp [start, List.mem_replicate]

theorem replace_length (c : Cursor (Worker α β ε)) (w : Worker α β ε) :
    (c.replace w).length = c.list.length := by
  simp [Cursor.replace, Cursor.list]

theorem tally_become (h : Tally P items n s taken failed) (hl : c.list = s.workers)
    (hi : c.item = v) (hwks : base.workers = c.replace w) (hqu : base.queue = s.queue)
    (hcl : base.closed = s.closed) (hp : base.producer = s.producer) (hf : base.flag = s.flag)
    (hh : held w ≤ held v) (hfls : fails w = fails v)
    (hleft : w = .finished none → s.flag = true ∨ s.closed = true) :
    Tally P items n base taken failed := by
  constructor
  · rw [hwks, replace_length, hl]
    exact h.staffed
  · rw [hcl, hp]
    exact h.closed
  · rw [hp, hqu]
    exact h.ahead
  · rw [hwks, heldAll_replace]
    have hle := h.held
    rw [← hl, heldAll_list, hi] at hle
    exact (add_le_add_right (add_le_add_left hh _) _).trans hle
  · rw [hwks, total_replace, hfls, ← hi, ← total_list, hl]
    exact h.card
  · exact h.failing
  · rw [hf]
    exact h.raised
  · rw [hwks, hf, hcl]
    intro hmem
    rcases Cursor.mem_replace.mp hmem with heq | hmem
    · exact hleft heq.symm
    · exact h.left (hl ▸ c.erase_subset hmem)

theorem tally_pop (h : Tally P items n s taken failed) {queue : List α} (hl : c.list = s.workers)
    (hi : c.item = .waiting) (hfrt : s.queue = a :: queue) :
    Tally P items n { s.become c (.holding a) with queue := queue } (taken ++ [a]) failed := by
  constructor
  · exact (replace_length c _).trans (hl ▸ h.staffed)
  · exact h.closed
  · intro p hp
    obtain ⟨rest,hpr,hits⟩ := h.ahead p hp
    refine ⟨rest,hpr,?_⟩
    rw [hits, hfrt]
    simp
  · show failed + heldAll (c.replace (.holding a)) ≤ ((taken ++ [a] : List α) : Multiset α)
    have hle := h.held
    rw [← hl, heldAll_list, hi] at hle
    rw [heldAll_replace, ← Multiset.coe_add, Multiset.coe_singleton]
    have hz : held (Worker.waiting : Worker α β ε) = 0 := rfl
    rw [hz, zero_add] at hle
    calc failed + (held (Worker.holding a : Worker α β ε) + heldAll c.erase)
      _ = failed + heldAll c.erase + {a} := by
        rw [show held (Worker.holding a : Worker α β ε) = {a} from rfl]
        abel
      _ ≤ taken + {a} := Multiset.add_le_add_right hle
  · show failed.card = total fails (c.replace (.holding a))
    rw [h.card, ← hl, total_list, total_replace, hi]
    rfl
  · exact h.failing
  · intro hf
    obtain ⟨b,hb,hr⟩ := h.raised hf
    exact ⟨b,List.mem_append_left _ hb,hr⟩
  · intro hmem
    rcases Cursor.mem_replace.mp hmem with heq | hmem
    · cases heq
    · exact h.left (hl ▸ c.erase_subset hmem)

theorem tally_fail (h : Tally P items n s taken failed) {e : ε} (hl : c.list = s.workers)
    (hi : c.item = .holding a) (ho : P.work a (.error e)) : Tally P items n
      { s.become c (.finished (some e)) with flag := s.flag || P.raises e } taken
      (failed + {a}) := by
  have hle := h.held
  rw [← hl, heldAll_list, hi, show held (Worker.holding a : Worker α β ε) = {a} from rfl,
    ← add_assoc] at hle
  constructor
  · exact (replace_length c _).trans (hl ▸ h.staffed)
  · exact h.closed
  · exact h.ahead
  · show failed + {a} + heldAll (c.replace (.finished (some e))) ≤ (taken : Multiset α)
    rw [heldAll_replace, show held (Worker.finished (some e) : Worker α β ε) = 0 from rfl, zero_add]
    exact hle
  · show (failed + {a}).card = total fails (c.replace (.finished (some e)))
    rw [Multiset.card_add, h.card, ← hl, total_list, total_replace, hi, Multiset.card_singleton]
    simp only [fails]
    omega
  · intro b hb
    rcases Multiset.mem_add.mp hb with hb | hb
    · exact h.failing b hb
    · rw [Multiset.mem_singleton.mp hb]
      exact ⟨e,ho⟩
  · intro hf
    rcases Bool.or_eq_true_iff.mp hf with hf | hr
    · exact h.raised hf
    · refine ⟨a,?_,e,ho,hr⟩
      apply Multiset.mem_coe.mp
      apply Multiset.mem_of_le hle
      simp
  · intro hmem
    rcases Cursor.mem_replace.mp hmem with heq | hmem
    · cases heq
    · rcases h.left (hl ▸ c.erase_subset hmem) with hf | hcl
      · exact .inl (by simp [hf])
      · exact .inr hcl

theorem step_tally (hheeds : Heeds P) (hs : Step P s s') (h : Tally P items n s taken failed) :
    ∃ taken failed, Tally P items n s' taken failed := by
  have ho : ∀ p, s.producer = some p → s.closed = false := by
    intro p hp
    rw [← Bool.not_eq_true, h.closed, hp]
    simp
  cases hs with
  | @skip p q at_ next =>
    have hn : P.next false p = .skip q := by
      cases hf : s.flag with
      | false => rwa [hf] at next
      | true =>
        rw [hf] at next
        rcases hheeds p with heq | ⟨hc,-⟩
        · rwa [heq] at next
        · rw [hc] at next
          cases next
    obtain ⟨rest,hpr,hits⟩ := h.ahead p at_
    refine ⟨taken,failed,h.staffed,?_,?_,h.held,h.card,h.failing,h.raised,h.left⟩
    · simp [ho p at_]
    · intro p' hp'
      obtain rfl : q = p' := Option.some.inj hp'
      exact ⟨rest,produces_skip hpr hn,hits⟩
  | @push p q _ at_ next isOpen _ =>
    obtain ⟨rest,hpr,hits⟩ := h.ahead p at_
    obtain ⟨later,rfl,hlat⟩ := produces_push hpr (hheeds.push.mp next)
    refine ⟨taken,failed,h.staffed,?_,?_,h.held,h.card,h.failing,h.raised,h.left⟩
    · simp [isOpen]
    · intro p' hp'
      obtain rfl : q = p' := Option.some.inj hp'
      refine ⟨later,hlat,?_⟩
      rw [hits]
      simp
  | lose at_ _ cl =>
    rw [ho _ at_] at cl
    cases cl
  | close _ _ =>
    refine ⟨taken,failed,h.staffed,by simp,?_,h.held,h.card,h.failing,h.raised,?_⟩
    · intro p hp
      cases hp
    · intro _
      exact .inr rfl
  | enter within item _ =>
    exact ⟨taken,failed,tally_become h within item rfl rfl rfl rfl rfl le_rfl rfl nofun⟩
  | leave within item raised =>
    exact ⟨taken,failed,tally_become h within item rfl rfl rfl rfl rfl le_rfl rfl
      (fun _ => .inl raised)⟩
  | pop within item front => exact ⟨_,_,tally_pop h within item front⟩
  | exhaust within item _ cl =>
    exact ⟨taken,failed,tally_become h within item rfl rfl rfl rfl rfl le_rfl rfl
      (fun _ => .inr cl)⟩
  | succeed within item _ =>
    exact ⟨taken,failed,tally_become h within item rfl rfl rfl rfl rfl le_rfl rfl nofun⟩
  | append within item =>
    exact ⟨taken,failed,tally_become h within item rfl rfl rfl rfl rfl (Multiset.zero_le _) rfl
      nofun⟩
  | fail within item outcome => exact ⟨_,_,tally_fail h within item outcome⟩

theorem canEnd_of_finished (h : Tally P items n s taken failed) (ho : s.closed = false)
    (hfin : ∀ w ∈ s.workers, ∃ fl, w = .finished fl) : CanEnd P n taken := by
  cases hf : s.flag with
  | true => exact .inl (h.raised hf)
  | false =>
    right
    refine ⟨failed,(Multiset.le_add_right _ _).trans h.held,?_,h.failing⟩
    have hfls : ∀ w ∈ s.workers, fails w = 1 := by
      intro w hw
      obtain ⟨fl,rfl⟩ := hfin w hw
      cases fl with
      | some _ => rfl
      | none =>
        rcases h.left hw with hrsd | hcl
        · simp [hf] at hrsd
        · simp [ho] at hcl
    rw [h.card, total, List.map_congr_left hfls]
    simp [h.staffed]

end Tally

section Progress

variable {s t : Sleepers π α β ε}

/-- What the work of a worker costs. A worker at the queue costs one more while
it is awake, and an item in the queue costs as much as the rest of the work on
it. -/
def weight : Worker α β ε → ℕ
  | .finished _ => 0
  | .waiting => 1
  | .ready => 3
  | .appending _ _ => 4
  | .holding _ => 5

def load (s : Sleepers π α β ε) : ℕ :=
  total weight s.base.workers + 4 * s.base.queue.length +
    (total waits s.base.workers - s.asleep)

def Settled (s : Sleepers π α β ε) : Prop :=
  (∀ w ∈ s.base.workers, w = .waiting ∨ ∃ failure, w = .finished failure) ∧
    s.asleep = total waits s.base.workers

theorem load_become {c : Cursor (Worker α β ε)} {v w : Worker α β ε} (hl : c.list = s.base.workers)
    (hi : c.item = v) (hle : weight w + waits w < weight v) (hwks : base.workers = c.replace w)
    (hqu : base.queue = s.base.queue) : load { s with base := base } < load s := by
  have hw := total_list weight c
  have hwts := total_list waits c
  rw [hl, hi] at hw hwts
  simp only [load, hwks, hqu, total_replace]
  omega

theorem unsettled_step (hreturns : ∀ a, ∃ outcome, P.work a outcome) (h : Sound P s)
    (hu : ¬ Settled s) :
    ∃ t, DueStep P s t ∧ t.base.producer = s.base.producer ∧ load t < load s := by
  by_cases hall : ∀ w ∈ s.base.workers, w = .waiting ∨ ∃ fl, w = .finished fl
  · -- all that are not at their end are at the queue, and one is awake
    have ha : s.asleep < total waits s.base.workers :=
      lt_of_le_of_ne h.asleep fun heq => hu ⟨hall,heq⟩
    obtain ⟨w,hw,hwts⟩ := total_pos waits (Nat.zero_lt_of_lt ha)
    obtain ⟨c,hl,hi⟩ := exists_cursor hw
    have hwa : c.item = .waiting := by
      rcases hall w hw with heq | ⟨fl,heq⟩
      · rw [hi, heq]
      · rw [heq] at hwts
        exact absurd hwts (Nat.lt_irrefl 0)
    cases hqu : s.base.queue with
    | nil =>
      cases hcl : s.base.closed with
      | true =>
        refine ⟨_,.exhaust hl hwa ha hqu hcl,rfl,?_⟩
        exact load_become hl hwa (by simp [weight, waits]) rfl rfl
      | false =>
        refine ⟨_,.sleep ha hqu hcl,rfl,?_⟩
        simp only [load]
        omega
    | cons _ _ =>
      refine ⟨_,.pop hl hwa ha hqu,rfl,?_⟩
      have hwe := total_list weight c
      have hcnt := total_list waits c
      rw [hl, hwa] at hwe hcnt
      simp only [weight, waits] at hwe hcnt
      simp only [load, hqu, List.length_cons, State.become, total_replace, weight, waits]
      omega
  · push Not at hall
    obtain ⟨w,hw,hwa,hfin⟩ := hall
    obtain ⟨c,hl,hi⟩ := exists_cursor hw
    cases w with
    | waiting => exact absurd rfl hwa
    | finished fl => exact absurd rfl (hfin fl)
    | ready =>
      cases hf : s.base.flag with
      | true =>
        exact ⟨_,.leave hl hi hf,rfl, load_become hl hi (by simp [weight, waits]) rfl rfl⟩
      | false =>
        exact ⟨_,.enter hl hi hf,rfl, load_become hl hi (by simp [weight, waits]) rfl rfl⟩
    | appending _ _ =>
      exact ⟨_,.append hl hi,rfl, load_become hl hi (by simp [weight, waits]) rfl rfl⟩
    | holding a =>
      obtain ⟨outcome,ho⟩ := hreturns a
      cases outcome with
      | ok _ =>
        exact ⟨_,.succeed hl hi ho,rfl, load_become hl hi (by simp [weight, waits]) rfl rfl⟩
      | error _ =>
        exact ⟨_,.fail hl hi ho,rfl, load_become hl hi (by simp [weight, waits]) rfl rfl⟩

structure Going (P : Program π α β ε) (items : List α) (n : ℕ) (s : Sleepers π α β ε) :
    Prop where
  sound : Sound P s
  tally : ∃ taken failed, Tally P items n s.base taken failed

theorem settled_finished (hset : Settled s) (ha : s.asleep = 0) :
    ∀ w ∈ s.base.workers, ∃ fl, w = .finished fl := by
  intro w hw
  rcases hset.1 w hw with rfl | hfin
  · obtain ⟨c,hl,hi⟩ := exists_cursor hw
    have hcnt := total_list waits c
    rw [hl, ← hset.2, ha, hi] at hcnt
    simp only [waits] at hcnt
    omega
  · exact hfin

theorem space_of_settled (hcap : 0 < P.capacity) (hf : Fits P n items) (h : Going P items n s)
    (hset : Settled s) {p q : π} (hp : s.base.producer = some p) (hn : P.next false p = .push a q) :
    s.base.closed = false ∧ s.base.queue.length < P.capacity := by
  have ho : s.base.closed = false := by
    rw [← Bool.not_eq_true, h.sound.closed, hp]
    simp
  refine ⟨ho,?_⟩
  by_contra hfu
  obtain ⟨taken,_,ht⟩ := h.tally
  have ha : s.asleep = 0 := by
    by_contra hne
    have hsrv := (h.sound.served (Nat.pos_of_ne_zero hne)).2
    have hall := hset.2
    omega
  have hcan := canEnd_of_finished ht ho (settled_finished hset ha)
  obtain ⟨_,hpr,hits⟩ := ht.ahead p hp
  obtain ⟨_,rfl,-⟩ := produces_push hpr hn
  have hr := hf taken _ hits hcan
  rw [List.length_append, List.length_cons] at hr
  omega

theorem not_stalled (h : Sound P s) (hpr : s.base.producer = some p)
    (hs : ∀ a q, P.next false p = .push a q → s.base.queue.length < P.capacity) :
    s.stalled = false := by
  rw [← Bool.not_eq_true]
  intro hst
  obtain ⟨p',q,a,hp,hn,-,hf⟩ := h.stalled hst
  obtain rfl : p = p' := Option.some.inj (hpr.symm.trans hp)
  exact absurd (hs a q hn) (Nat.not_lt.mpr hf)

section Runs

variable (hheeds : Heeds P)

include hheeds

theorem step_going (hs : SleepStep P s t) (h : Going P items n s) : Going P items n t := by
  refine ⟨step_sound hheeds hs h.sound,?_⟩
  obtain ⟨taken,failed,ht⟩ := h.tally
  rcases step_refines hs with hb | hb
  · exact step_tally hheeds hb ht
  · rw [hb]
    exact ⟨taken,failed,ht⟩

theorem run_going (hr : SleepReaches P s t) (h : Going P items n s) : Going P items n t := by
  induction hr with
  | refl => exact h
  | tail _ hs ih => exact step_going hheeds hs ih

variable (hreturns : ∀ a, ∃ outcome, P.work a outcome)

include hreturns

theorem reaches_settled (h : Going P items n s) : ∃ t, DueReaches P s t ∧ Going P items n t ∧
    t.base.producer = s.base.producer ∧ Settled t := by
  induction hl : load s using Nat.strong_induction_on generalizing s with
  | _ _ ih =>
    by_cases hset : Settled s
    · exact ⟨s,.refl,h,rfl,hset⟩
    · obtain ⟨t,hs,hp,hle⟩ := unsettled_step hreturns h.sound hset
      obtain ⟨r,hr,hgo,hsa,hset⟩ := ih (load t) (hl ▸ hle) (step_going hheeds (.due hs) h) rfl
      exact ⟨r,.head hs hr,hgo,hsa.trans hp,hset⟩

theorem ended_of_closed (h : Going P items n s) (hp : s.base.producer = none) :
    ∃ t, DueReaches P s t ∧ Ended t := by
  obtain ⟨t,hr,hgo,hs,hset⟩ := reaches_settled hheeds hreturns h
  refine ⟨t,hr,hs.trans hp,settled_finished hset ?_⟩
  by_contra hne
  have ho := (hgo.sound.served (Nat.pos_of_ne_zero hne)).1
  rw [hgo.sound.closed.mpr (hs.trans hp)] at ho
  cases ho

theorem ended_of_produces (hcap : 0 < P.capacity) (hf : Fits P n items) {rest : List α}
    (hprods : Produces P p rest) (h : Going P items n s) (hpr : s.base.producer = some p) :
    ∃ t, DueReaches P s t ∧ Ended t := by
  -- by induction on what the producer still does: the workers settle, then it takes its step
  induction hprods generalizing s with
  | @close p next =>
    obtain ⟨t,hrc,hgo,hsa,hset⟩ := reaches_settled hheeds hreturns h
    have hp := hsa.trans hpr
    have ha := not_stalled hgo.sound hp fun a q hpu => by rw [next] at hpu; cases hpu
    have hn : P.next t.base.flag p = .close := by
      cases t.base.flag with
      | false => exact next
      | true =>
        rcases hheeds p with heq | ⟨hc,-⟩
        · rw [heq, next]
        · exact hc
    have hs := DueStep.close ha hp hn
    obtain ⟨r,hr,hend⟩ := ended_of_closed hheeds hreturns (step_going hheeds (.due hs) hgo) rfl
    exact ⟨r,hrc.trans (.head hs hr),hend⟩
  | @skip p q _ next _ ih =>
    obtain ⟨t,hrc,hgo,hsa,hset⟩ := reaches_settled hheeds hreturns h
    have hp := hsa.trans hpr
    have ha := not_stalled hgo.sound hp fun a q hpu => by rw [next] at hpu; cases hpu
    have hn : P.next t.base.flag p = .skip q ∨ P.next t.base.flag p = .close := by
      cases t.base.flag with
      | false => exact .inl next
      | true =>
        rcases hheeds p with heq | ⟨hc,-⟩
        · exact .inl (heq.trans next)
        · exact .inr hc
    rcases hn with hn | hn
    · have hs := DueStep.skip ha hp hn
      obtain ⟨r,hr,hend⟩ := ih (step_going hheeds (.due hs) hgo) rfl
      exact ⟨r,hrc.trans (.head hs hr),hend⟩
    · have hs := DueStep.close ha hp hn
      obtain ⟨r,hr,hend⟩ := ended_of_closed hheeds hreturns (step_going hheeds (.due hs) hgo) rfl
      exact ⟨r,hrc.trans (.head hs hr),hend⟩
  | @push _ _ _ _ next _ ih =>
    obtain ⟨t,hrc,hgo,hsa,hset⟩ := reaches_settled hheeds hreturns h
    have hp := hsa.trans hpr
    obtain ⟨ho,hsp⟩ := space_of_settled hcap hf hgo hset hp next
    have ha := not_stalled hgo.sound hp fun _ _ _ => hsp
    have hs := DueStep.push ha hp (hheeds.push.mpr next) ho hsp
    obtain ⟨r,hr,hend⟩ := ih (step_going hheeds (.due hs) hgo) rfl
    exact ⟨r,hrc.trans (.head hs hr),hend⟩

theorem reaches_ended (hcap : 0 < P.capacity) (hpr : Produces P p items) (hf : Fits P n items)
    (hr : SleepReaches P (Sleepers.start p n) s) : ∃ t, DueReaches P s t ∧ Ended t := by
  have hst : Going P items n (Sleepers.start p n) := ⟨start_sound p n,_,_,start_tally hpr n⟩
  have hgo := run_going hheeds hr hst
  cases hp : s.base.producer with
  | none => exact ended_of_closed hheeds hreturns hgo hp
  | some p' =>
    obtain ⟨_,_,ht⟩ := hgo.tally
    obtain ⟨_,hre,-⟩ := ht.ahead p' hp
    exact ended_of_produces hheeds hreturns hcap hf hre hgo hp

end Runs

end Progress

end Orbis.QueueSleepers
