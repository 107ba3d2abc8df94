import Mathlib.Algebra.BigOperators.Group.Multiset.Basic
import Mathlib.Logic.Relation
import Mathlib.Tactic.Abel
import Orbis.ListCursor

/-!
# A bounded queue between a producer and workers

A producer puts items into a queue of limited length and closes it. Workers
take them out, one item at a time, and append the results under a lock. A
worker that fails may raise a flag, which the producer and the workers read
between two items. In every interleaving that ends without a failure the
results are those of all items, in some order.
-/

set_option autoImplicit false

namespace Orbis.WorkQueue

open Relation ListCursor

inductive Action (π α : Type) where
  | skip (next : π)
  | push (item : α) (next : π)
  | close

inductive Worker (α β ε : Type) where
  | ready
  | waiting
  | holding (item : α)
  | appending (item : α) (result : β)
  | finished (failure : Option ε)

structure Program (π α β ε : Type) where
  capacity : ℕ
  next : Bool → π → Action π α
  work : α → Except ε β → Prop
  raises : ε → Bool

structure State (π α β ε : Type) where
  producer : Option π
  queue : List α
  closed : Bool
  flag : Bool
  workers : List (Worker α β ε)
  collected : List (α × β)

variable {π α β ε : Type}

def start (p : π) (n : ℕ) : State π α β ε where
  producer := some p
  queue := []
  closed := false
  flag := false
  workers := List.replicate n .ready
  collected := []

def State.become (s : State π α β ε) (c : Cursor (Worker α β ε)) (w : Worker α β ε) :
    State π α β ε :=
  { s with workers := c.replace w }

/-- A push into a closed queue is lost. A worker gets nothing from a queue that
is empty and closed. -/
inductive Step (P : Program π α β ε) (s : State π α β ε) : State π α β ε → Prop
  | skip {p q : π} (at_ : s.producer = some p) (next : P.next s.flag p = .skip q) :
      Step P s { s with producer := some q }
  | push {p q : π} {a : α} (at_ : s.producer = some p) (next : P.next s.flag p = .push a q)
      (isOpen : s.closed = false) (space : s.queue.length < P.capacity) :
      Step P s { s with producer := some q, queue := s.queue ++ [a] }
  | lose {p q : π} {a : α} (at_ : s.producer = some p) (next : P.next s.flag p = .push a q)
      (isClosed : s.closed = true) : Step P s { s with producer := some q }
  | close {p : π} (at_ : s.producer = some p) (next : P.next s.flag p = .close) :
      Step P s { s with producer := none, closed := true }
  | enter {c : Cursor (Worker α β ε)} (within : c.list = s.workers) (item : c.item = .ready)
      (lowered : s.flag = false) : Step P s (s.become c .waiting)
  | leave {c : Cursor (Worker α β ε)} (within : c.list = s.workers) (item : c.item = .ready)
      (raised : s.flag = true) : Step P s (s.become c (.finished none))
  | pop {c : Cursor (Worker α β ε)} {a : α} {queue : List α} (within : c.list = s.workers)
      (item : c.item = .waiting) (front : s.queue = a :: queue) :
      Step P s { s.become c (.holding a) with queue := queue }
  | exhaust {c : Cursor (Worker α β ε)} (within : c.list = s.workers) (item : c.item = .waiting)
      (empty : s.queue = []) (isClosed : s.closed = true) :
      Step P s (s.become c (.finished none))
  | succeed {c : Cursor (Worker α β ε)} {a : α} {b : β} (within : c.list = s.workers)
      (item : c.item = .holding a) (outcome : P.work a (.ok b)) :
      Step P s (s.become c (.appending a b))
  | append {c : Cursor (Worker α β ε)} {a : α} {b : β} (within : c.list = s.workers)
      (item : c.item = .appending a b) :
      Step P s { s.become c .ready with collected := s.collected ++ [(a, b)] }
  | fail {c : Cursor (Worker α β ε)} {a : α} {e : ε} (within : c.list = s.workers)
      (item : c.item = .holding a) (outcome : P.work a (.error e)) :
      Step P s { s.become c (.finished (some e)) with flag := s.flag || P.raises e }

def Reaches (P : Program π α β ε) : State π α β ε → State π α β ε → Prop :=
  ReflTransGen (Step P)

inductive Produces (P : Program π α β ε) : π → List α → Prop
  | close {p : π} (next : P.next false p = .close) : Produces P p []
  | skip {p q : π} {l : List α} (next : P.next false p = .skip q) (rest : Produces P q l) :
      Produces P p l
  | push {p q : π} {a : α} {l : List α} (next : P.next false p = .push a q)
      (rest : Produces P q l) : Produces P p (a :: l)

section Conservation

variable {P : Program π α β ε} {s s' : State π α β ε} {items : List α}
  {c : Cursor (Worker α β ε)} {w : Worker α β ε} {l : List α}

def held : Worker α β ε → Multiset α
  | .holding a => {a}
  | .appending a _ => {a}
  | _ => 0

def heldAll (workers : List (Worker α β ε)) : Multiset α := (workers.map held).sum

theorem heldAll_list (c : Cursor (Worker α β ε)) :
    heldAll c.list = held c.item + heldAll c.erase := by
  rw [heldAll, (c.perm_list.map held).sum_eq, List.map_cons, List.sum_cons]
  rfl

theorem heldAll_replace : heldAll (c.replace w) = held w + heldAll c.erase :=
  heldAll_list ⟨c.before, w, c.after⟩

def Failed (s : State π α β ε) : Prop := ∃ e, Worker.finished (some e) ∈ s.workers

def Ahead (P : Program π α β ε) (s : State π α β ε) (rest : List α) : Prop :=
  (∃ p, s.producer = some p ∧ s.closed = false ∧ Produces P p rest) ∨
    (s.producer = none ∧ s.closed = true ∧ rest = [])

structure Conserves (P : Program π α β ε) (items : List α) (s : State π α β ε) : Prop where
  lowered : s.flag = false
  staffed : s.workers ≠ []
  balance : ∃ rest, Ahead P s rest ∧ (items : Multiset α) =
    (s.collected.map Prod.fst : List α) + (heldAll s.workers + (s.queue + (rest : Multiset α)))
  ended : Worker.finished none ∈ s.workers → s.closed = true ∧ s.queue = []
  results : ∀ r ∈ s.collected, P.work r.1 (.ok r.2)
  pending : ∀ a b, Worker.appending a b ∈ s.workers → P.work a (.ok b)

theorem failed_become (h : Failed s) (hl : c.list = s.workers)
    (hi : ∀ e, c.item ≠ .finished (some e)) (w : Worker α β ε) : Failed (s.become c w) := by
  obtain ⟨e,he⟩ := h
  rw [← hl] at he
  rcases List.mem_cons.mp (c.perm_list.mem_iff.mp he) with heq | he
  · exact absurd heq.symm (hi e)
  · exact ⟨e,Cursor.mem_replace.mpr (.inr he)⟩

theorem step_failed (hs : Step P s s') (h : Failed s) : Failed s' := by
  have hwk : ∀ {c : Cursor (Worker α β ε)} {v : Worker α β ε}, c.list = s.workers →
      c.item = v → (∀ e, v ≠ .finished (some e)) → ∀ w, Failed (s.become c w) := by
    intro c v hl hi hv
    exact failed_become h hl (hi ▸ hv)
  cases hs with
  | skip => exact h
  | push => exact h
  | lose => exact h
  | close => exact h
  | enter within item => exact hwk within item nofun _
  | leave within item => exact hwk within item nofun _
  | pop within item => exact hwk within item nofun _
  | exhaust within item => exact hwk within item nofun _
  | succeed within item => exact hwk within item nofun _
  | append within item => exact hwk within item nofun _
  | fail within item => exact hwk within item nofun _

theorem produces_skip {p q : π} (h : Produces P p l) (hn : P.next false p = .skip q) :
    Produces P q l := by
  cases h with
  | close next => rw [hn] at next; cases next
  | skip next rest => rw [hn] at next; cases next; exact rest
  | push next _ => rw [hn] at next; cases next

theorem produces_push {p q : π} {a : α} (h : Produces P p l) (hn : P.next false p = .push a q) :
    ∃ rest, l = a :: rest ∧ Produces P q rest := by
  cases h with
  | close next => rw [hn] at next; cases next
  | skip next _ => rw [hn] at next; cases next
  | push next rest => rw [hn] at next; cases next; exact ⟨_,rfl,rest⟩

theorem produces_close {p : π} (h : Produces P p l) (hn : P.next false p = .close) : l = [] := by
  cases h with
  | close _ => rfl
  | skip next _ => rw [hn] at next; cases next
  | push next _ => rw [hn] at next; cases next

theorem conserves_become (h : Conserves P items s) (hl : c.list = s.workers) (w : Worker α β ε)
    {queue : List α} {collected : List (α × β)}
    (hb : ((s.collected.map Prod.fst : List α) : Multiset α) + (held c.item + s.queue) =
      (collected.map Prod.fst : List α) + (held w + (queue : Multiset α)))
    (hqu : s.queue = [] → queue = []) (hend : w = .finished none → s.closed = true ∧ queue = [])
    (hr : ∀ r ∈ collected, P.work r.1 (.ok r.2))
    (hp : ∀ a b, w = .appending a b → P.work a (.ok b)) :
    Conserves P items { s.become c w with queue := queue, collected := collected } := by
  have hera : c.erase ⊆ s.workers := hl ▸ c.erase_subset
  obtain ⟨rest,ha,hits⟩ := h.balance
  refine ⟨h.lowered,?_,⟨rest,ha,?_⟩,?_,hr,?_⟩
  · exact List.append_ne_nil_of_right_ne_nil _ (List.cons_ne_nil _ _)
  · show (items : Multiset α) = (collected.map Prod.fst : List α) +
      (heldAll (c.replace w) + (queue + (rest : Multiset α)))
    rw [heldAll_replace]
    rw [← hl, heldAll_list] at hits
    calc (items : Multiset α)
      _ = ((s.collected.map Prod.fst : List α) : Multiset α) + (held c.item + s.queue) +
          (heldAll c.erase + rest) := by rw [hits]; abel
      _ = _ := by rw [hb]; abel
  · intro hmem
    rcases Cursor.mem_replace.mp hmem with hw | hmem
    · exact hend hw.symm
    · obtain ⟨hcl,hemp⟩ := h.ended (hera hmem)
      exact ⟨hcl,hqu hemp⟩
  · intro a b hmem
    rcases Cursor.mem_replace.mp hmem with hw | hmem
    · exact hp a b hw.symm
    · exact h.pending a b (hera hmem)

theorem step_conserves (hs : Step P s s') (h : Conserves P items s) :
    Failed s' ∨ Conserves P items s' := by
  obtain ⟨rest,ha,hits⟩ := h.balance
  cases hs with
  | @skip _ q at_ next =>
    right
    rw [h.lowered] at next
    rcases ha with ⟨p',hp,ho,hpr⟩ | ⟨hn,-,-⟩
    · rw [at_] at hp
      cases hp
      exact ⟨h.lowered,h.staffed,⟨rest,.inl ⟨q,rfl,ho,produces_skip hpr next⟩,hits⟩,
        h.ended,h.results,h.pending⟩
    · rw [at_] at hn
      cases hn
  | @push _ q a at_ next isOpen _ =>
    right
    rw [h.lowered] at next
    rcases ha with ⟨p',hp,ho,hpr⟩ | ⟨hn,-,-⟩
    · rw [at_] at hp
      cases hp
      obtain ⟨later,rfl,hlat⟩ := produces_push hpr next
      refine ⟨h.lowered,h.staffed,⟨later,.inl ⟨q,rfl,ho,hlat⟩,?_⟩,?_,h.results,h.pending⟩
      · rw [hits]
        show _ = _ + (_ + (((s.queue ++ [a] : List α) : Multiset α) + _))
        rw [← Multiset.coe_add, ← Multiset.cons_coe, ← Multiset.singleton_add,
          Multiset.coe_singleton]
        abel
      · intro hmem
        rw [(h.ended hmem).1] at isOpen
        cases isOpen
    · rw [at_] at hn
      cases hn
  | @lose _ _ _ at_ _ cl =>
    rcases ha with ⟨p',hp,ho,-⟩ | ⟨hn,-,-⟩
    · rw [cl] at ho
      cases ho
    · rw [at_] at hn
      cases hn
  | @close _ at_ next =>
    right
    rw [h.lowered] at next
    rcases ha with ⟨p',hp,ho,hpr⟩ | ⟨hn,-,-⟩
    · rw [at_] at hp
      cases hp
      obtain rfl := produces_close hpr next
      exact ⟨h.lowered,h.staffed,⟨[],.inr ⟨rfl,rfl,rfl⟩,hits⟩,
        fun hmem => ⟨rfl,(h.ended hmem).2⟩,h.results,h.pending⟩
    · rw [at_] at hn
      cases hn
  | @enter _ within item _ =>
    right
    apply conserves_become h within .waiting (by rw [item]; rfl) id nofun h.results nofun
  | @leave _ _ _ raised =>
    rw [h.lowered] at raised
    cases raised
  | @pop _ a queue within item front =>
    right
    refine conserves_become h within (.holding a) ?_ ?_ nofun h.results nofun
    · rw [item, front]
      show _ + (0 + ((a :: queue : List α) : Multiset α)) = _ + ({a} + (queue : Multiset α))
      rw [zero_add, ← Multiset.cons_coe, Multiset.singleton_add]
      rfl
    · intro hemp
      rw [front] at hemp
      cases hemp
  | @exhaust _ within item empty cl =>
    right
    exact conserves_become h within (.finished none) (by rw [item]; rfl) id
      (fun _ => ⟨cl,empty⟩) h.results nofun
  | @succeed _ a b within item outcome =>
    right
    refine conserves_become h within (.appending a b) (by rw [item]; rfl) id nofun h.results ?_
    rintro a' b' ⟨⟩
    exact outcome
  | @append c a b within item =>
    right
    refine conserves_become h within .ready ?_ id nofun ?_ nofun
    · rw [item, List.map_append, ← Multiset.coe_add]
      show _ + ({a} + (s.queue : Multiset α)) = _ + {a} + (0 + (s.queue : Multiset α))
      rw [zero_add, add_assoc]
    · intro r hr
      rcases List.mem_append.mp hr with hr | hr
      · exact h.results r hr
      · rw [List.mem_singleton.mp hr]
        exact h.pending a b (within ▸ item ▸ c.item_mem)
  | @fail _ _ e _ _ _ =>
    exact .inl ⟨e,Cursor.mem_replace.mpr (.inl rfl)⟩

end Conservation

section Runs

variable {P : Program π α β ε} {s : State π α β ε} {items : List α} {p : π} {n : ℕ}

theorem start_conserves (hp : Produces P p items) (hn : 0 < n) : Conserves P items (start p n) := by
  have hre : ∀ w ∈ (start p n : State π α β ε).workers, w = .ready :=
    fun w hw => List.eq_of_mem_replicate hw
  have hh : heldAll (start p n : State π α β ε).workers = 0 := by
    rw [heldAll, start, List.map_replicate, List.sum_replicate]
    exact nsmul_zero n
  refine ⟨rfl,?_,⟨items,.inl ⟨p,rfl,rfl,hp⟩,?_⟩,?_,?_,?_⟩
  · intro hnil
    exact hn.ne' ((List.length_replicate ..).symm.trans (List.length_eq_zero_iff.mpr hnil))
  · rw [hh]
    show (items : Multiset α) = 0 + (0 + (0 + (items : Multiset α)))
    rw [zero_add, zero_add, zero_add]
  · intro hmem
    cases hre _ hmem
  · exact fun _ hr => (List.not_mem_nil hr).elim
  · intro a b hmem
    cases hre _ hmem

theorem run_conserves (hp : Produces P p items) (hn : 0 < n)
    (hrun : Reaches P (start p n) s) : Failed s ∨ Conserves P items s := by
  induction hrun with
  | refl => exact .inr (start_conserves hp hn)
  | tail _ hs ih =>
    rcases ih with hfl | hc
    · exact .inl (step_failed hs hfl)
    · exact step_conserves hs hc

theorem collected_perm (hp : Produces P p items) (hn : 0 < n) (hrun : Reaches P (start p n) s)
    (hend : ∀ w ∈ s.workers, w = .finished none) :
    (s.collected.map Prod.fst).Perm items ∧ ∀ r ∈ s.collected, P.work r.1 (.ok r.2) := by
  rcases run_conserves hp hn hrun with ⟨e,he⟩ | h
  · cases hend _ he
  · obtain ⟨w,hw⟩ := List.exists_mem_of_ne_nil _ h.staffed
    obtain ⟨hcl,hemp⟩ := h.ended (hend w hw ▸ hw)
    have hh : heldAll s.workers = 0 := by
      apply List.sum_eq_zero
      refine List.forall_mem_map.mpr ?_
      intro v hv
      rw [hend v hv]
      rfl
    obtain ⟨_,⟨_,-,ho,-⟩ | ⟨-,-,rfl⟩,hits⟩ := h.balance
    · rw [hcl] at ho
      cases ho
    · rw [hh, hemp] at hits
      refine ⟨?_,h.results⟩
      apply Multiset.coe_eq_coe.mp
      rw [hits]
      show _ = _ + (0 + (0 + 0))
      rw [add_zero, add_zero, add_zero]

end Runs

end Orbis.WorkQueue
