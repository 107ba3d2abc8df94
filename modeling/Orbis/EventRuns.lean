import Mathlib.Data.List.Basic
import Mathlib.Data.List.Count

/-!
# Runs of a machine and the events they show

A machine takes steps that may be disabled, and each step shows some events.
A run is a list of actions taken one after another. Invariants speak about
the events shown so far and the state together, so that a property of the
whole course of events is carried from step to step. A request in a list of
events is unanswered while no answer stands behind it.
-/

set_option autoImplicit false

namespace Orbis.EventRuns

section Runs

variable {σ α ε : Type} {step : σ → α → Option (σ × List ε)} {acts : List α} {es : List ε}
  {s s' : σ}

def run (step : σ → α → Option (σ × List ε)) : List α → σ → Option (σ × List ε)
  | [], s => some (s, [])
  | a :: rest, s =>
    (step s a).bind fun r => (run step rest r.1).map fun q => (q.1, r.2 ++ q.2)

theorem run_cons {a : α} {rest : List α} (h : run step (a :: rest) s = some (s', es)) :
    ∃ mid new later, step s a = some (mid, new) ∧
      run step rest mid = some (s', later) ∧ es = new ++ later := by
  rw [run, Option.bind_eq_some_iff] at h
  obtain ⟨⟨mid,new⟩,hs,hr⟩ := h
  rw [Option.map_eq_some_iff] at hr
  obtain ⟨⟨_,later⟩,hlat,heq⟩ := hr
  rw [Prod.mk.injEq] at heq
  obtain ⟨rfl,rfl⟩ := heq
  exact ⟨mid,new,later,hs,hlat,rfl⟩

theorem run_invariant_after {I : List ε → σ → Prop}
    (hs : ∀ {es s a s' new}, I es s → step s a = some (s', new) → I (es ++ new) s')
    {pre es : List ε} (hst : I pre s) (hrun : run step acts s = some (s', es)) :
    I (pre ++ es) s' := by
  induction acts generalizing s pre es with
  | nil =>
    rw [run, Option.some.injEq, Prod.mk.injEq] at hrun
    obtain ⟨rfl,rfl⟩ := hrun
    simpa using hst
  | cons _ _ ih =>
    obtain ⟨_,new,_,hfst,hlat,rfl⟩ := run_cons hrun
    rw [← List.append_assoc]
    exact ih (hs hst hfst) hlat

theorem run_invariant (I : List ε → σ → Prop)
    (hs : ∀ {es s a s' new}, I es s → step s a = some (s', new) → I (es ++ new) s') (hst : I [] s)
    (hrun : run step acts s = some (s', es)) : I es s' :=
  run_invariant_after hs hst hrun

theorem countP_le_measure (J : σ → Prop) (measure : σ → ℕ) (counted : α → Bool)
    (excluded : ε → Prop)
    (hs : ∀ {s a s' new}, J s → step s a = some (s', new) → (∀ e ∈ new, ¬ excluded e) →
      J s' ∧ measure s' + (if counted a then 1 else 0) ≤ measure s) (hst : J s)
    (hrun : run step acts s = some (s', es)) (hes : ∀ e ∈ es, ¬ excluded e) :
    J s' ∧ measure s' + acts.countP counted ≤ measure s := by
  induction acts generalizing s es with
  | nil =>
    rw [run, Option.some.injEq, Prod.mk.injEq] at hrun
    obtain ⟨rfl,rfl⟩ := hrun
    exact ⟨hst,by simp⟩
  | cons _ _ ih =>
    obtain ⟨_,new,_,hfst,hlat,rfl⟩ := run_cons hrun
    rw [List.forall_mem_append] at hes
    obtain ⟨hmid,_⟩ := hs hst hfst hes.1
    obtain ⟨hl,_⟩ := ih hmid hlat hes.2
    refine ⟨hl,?_⟩
    rw [List.countP_cons]
    omega

end Runs

section Events

variable {ε : Type} {ask ans bad : ε} {es new : List ε} {P : List ε → Prop}

def Unanswered (ask answer : ε) (es : List ε) : Prop :=
  ∃ before after, es = before ++ ask :: after ∧ answer ∉ after

def NeverWhile (P : List ε → Prop) (bad : ε) (es : List ε) : Prop :=
  ∀ before after, es = before ++ bad :: after → ¬ P before

theorem not_unanswered_nil : ¬ Unanswered ask ans [] := by
  intro h
  obtain ⟨_,_,heq,_⟩ := h
  simp at heq

theorem Unanswered.of_append (h : Unanswered ask ans (es ++ new)) :
    ask ∈ new ∨ (Unanswered ask ans es ∧ ans ∉ new) := by
  obtain ⟨pre,_,heq,ha⟩ := h
  rw [List.append_eq_append_iff] at heq
  rcases heq with ⟨mid,_,hnew⟩ | ⟨mid,hes,hr⟩
  · left
    simp [hnew]
  · cases mid with
    | nil =>
      left
      rw [← List.nil_append new, ← hr]
      exact List.mem_cons_self
    | cons _ mid =>
      right
      rw [List.cons_append, List.cons.injEq] at hr
      obtain ⟨rfl,rfl⟩ := hr
      rw [List.mem_append, not_or] at ha
      exact ⟨⟨pre,mid,hes,ha.1⟩,ha.2⟩

theorem neverWhile_append : NeverWhile P bad (es ++ new) ↔
      NeverWhile P bad es ∧ NeverWhile (fun pre => P (es ++ pre)) bad new := by
  constructor
  · intro h
    constructor
    · intro pre after heq
      apply h pre (after ++ new)
      rw [heq, List.append_assoc, List.cons_append]
    · intro pre after heq
      apply h (es ++ pre) after
      rw [heq, List.append_assoc]
  · intro h pre after heq
    rw [List.append_eq_append_iff] at heq
    rcases heq with ⟨mid,rfl,hnew⟩ | ⟨mid,hes,hr⟩
    · exact h.2 mid after hnew
    · cases mid with
      | nil =>
        have hbef : ¬ P (es ++ []) := h.2 [] after hr.symm
        rwa [List.append_nil, hes, List.append_nil] at hbef
      | cons _ mid =>
        rw [List.cons_append, List.cons.injEq] at hr
        exact h.1 pre mid (by rw [hes, hr.1])

theorem neverWhile_of_notMem (h : bad ∉ es) : NeverWhile P bad es := by
  intro pre after heq
  exact absurd (by simp [heq]) h

end Events

end Orbis.EventRuns
