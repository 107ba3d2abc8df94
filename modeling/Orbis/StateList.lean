import Mathlib.Data.List.Forall2
import Orbis.FaultState

/-!
# One computation on every state of a list

A loop runs the same computation on the members of a list, one after another,
and ends at the first that stops in a fault. The members before it are left
as they became, the one that stopped as the fault left it, and the rest as
they were.
-/

set_option autoImplicit false

namespace Orbis.StateList

open FaultState

variable {ε σ : Type} {act : EStateM ε σ Unit} {l l' : List σ} {e : ε} {R : σ → σ → Prop} {s s' : σ}

structure Progress (ε σ : Type) where
  done : List σ
  stop : Option (ε × List σ)

def advance (act : EStateM ε σ Unit) : List σ → Progress ε σ
  | [] => ⟨[], none⟩
  | s :: rest =>
    match act s with
    | .ok _ s' => ⟨s' :: (advance act rest).done, (advance act rest).stop⟩
    | .error e s' => ⟨[], some (e, s' :: rest)⟩

def each (act : EStateM ε σ Unit) : EStateM ε (List σ) Unit := fun l =>
  match (advance act l).stop with
  | none => .ok () (advance act l).done
  | some (e, rest) => .error e ((advance act l).done ++ rest)

def Done (act : EStateM ε σ Unit) (s s' : σ) : Prop := act s = .ok () s'

theorem forall₂_mem_left {s : σ} (h : List.Forall₂ R l l') (hs : s ∈ l) : ∃ s' ∈ l', R s s' := by
  induction h with
  | nil => cases hs
  | @cons _ a' _ _ hfst _ ih =>
    rcases List.mem_cons.mp hs with rfl | hs
    · exact ⟨a',List.mem_cons_self,hfst⟩
    · obtain ⟨s',hs',hr⟩ := ih hs
      exact ⟨s',List.mem_cons_of_mem a' hs',hr⟩

theorem forall₂_mem_right {s' : σ} (h : List.Forall₂ R l l') (hs : s' ∈ l') : ∃ s ∈ l, R s s' := by
  have hf : List.Forall₂ (flip R) l' l := h.flip
  exact forall₂_mem_left hf hs

theorem exists_all_done (h : ∀ s ∈ l, ∃ s', Done act s s') :
    ∃ l', List.Forall₂ (Done act) l l' := by
  induction l with
  | nil => exact ⟨[],.nil⟩
  | cons _ _ ih =>
    obtain ⟨⟨s',hs⟩,hr⟩ := List.forall_mem_cons.mp h
    obtain ⟨rest',hd⟩ := ih hr
    exact ⟨s' :: rest',.cons hs hd⟩

theorem forall₂_done_iff {P : σ → Prop} (hiff : ∀ s s', s ∈ l → Done act s s' → (R s s' ↔ P s))
    (h : List.Forall₂ (Done act) l l') : List.Forall₂ R l l' ↔ ∀ s ∈ l, P s := by
  induction h with
  | nil => simp
  | @cons s s' _ _ hfst _ ih =>
    rw [List.forall₂_cons, List.forall_mem_cons, hiff s s' List.mem_cons_self hfst,
      ih fun t t' ht => hiff t t' (List.mem_cons_of_mem s ht)]

theorem forall₂_stopped_iff (hr : ∀ s, R s s) {pre done after : List σ}
    (h : List.Forall₂ (Done act) pre done) :
    List.Forall₂ R (pre ++ s :: after) (done ++ s' :: after) ↔
      List.Forall₂ R pre done ∧ R s s' := by
  induction h with
  | nil =>
    rw [List.nil_append, List.nil_append, List.forall₂_cons]
    simp [List.forall₂_same, hr]
  | @cons _ _ _ _ _ _ ih =>
    rw [List.cons_append, List.cons_append, List.forall₂_cons, List.forall₂_cons, ih, and_assoc]

theorem advance_cons_ok (h : act s = .ok () s') (rest : List σ) :
    advance act (s :: rest) = ⟨s' :: (advance act rest).done, (advance act rest).stop⟩ := by
  rw [advance, h]

theorem advance_cons_error (h : act s = .error e s') (rest : List σ) :
    advance act (s :: rest) = ⟨[], some (e, s' :: rest)⟩ := by
  rw [advance, h]

theorem advance_finished : advance act l = ⟨l', none⟩ ↔ List.Forall₂ (Done act) l l' := by
  induction l generalizing l' with
  | nil =>
    rw [List.forall₂_nil_left_iff, advance]
    simp [eq_comm]
  | cons s _ ih =>
    rw [List.forall₂_cons_left_iff]
    cases h : act s with
    | ok _ s' =>
      rw [advance_cons_ok h, Progress.mk.injEq]
      constructor
      · rintro ⟨rfl,hs⟩
        refine ⟨s',_,h,?_,rfl⟩
        rw [← ih, ← hs]
      · rintro ⟨_,_,hd,hr,rfl⟩
        rw [Done, h] at hd
        cases hd
        rw [ih.mpr hr]
        exact ⟨rfl,rfl⟩
    | error _ _ =>
      rw [advance_cons_error h]
      simp [Done, h]

theorem advance_stopped {done rest : List σ} :
    advance act l = ⟨done, some (e, rest)⟩ ↔ ∃ pre s s' after, l = pre ++ s :: after ∧
      List.Forall₂ (Done act) pre done ∧ act s = .error e s' ∧ rest = s' :: after := by
  induction l generalizing done with
  | nil => simp [advance]
  | cons s tail ih =>
    cases h : act s with
    | ok _ _ =>
      rw [advance_cons_ok h, Progress.mk.injEq]
      constructor
      · rintro ⟨rfl,hs⟩
        obtain ⟨pre,t,t',after,rfl,hbef,ht,rfl⟩ := ih.mp (by rw [← hs])
        exact ⟨s :: pre,t,t',after,rfl,.cons h hbef,ht,rfl⟩
      · rintro ⟨pre,t,t',after,hl,hbef,ht,rfl⟩
        cases hbef with
        | nil =>
          obtain ⟨rfl,rfl⟩ := List.cons.inj hl
          rw [h] at ht
          cases ht
        | @cons _ _ pre _ hu hbef =>
          rw [List.cons_append] at hl
          obtain ⟨rfl,rfl⟩ := List.cons.inj hl
          rw [Done, h] at hu
          cases hu
          rw [ih.mpr ⟨pre,t,t',after,rfl,hbef,ht,rfl⟩]
          exact ⟨rfl,rfl⟩
    | error _ s' =>
      rw [advance_cons_error h, Progress.mk.injEq]
      constructor
      · rintro ⟨rfl,hs⟩
        cases hs
        exact ⟨[],s,s',tail,rfl,.nil,h,rfl⟩
      · rintro ⟨pre,t,t',after,hl,hbef,ht,rfl⟩
        cases hbef with
        | nil =>
          obtain ⟨rfl,rfl⟩ := List.cons.inj hl
          rw [h] at ht
          cases ht
          exact ⟨rfl,rfl⟩
        | @cons _ _ _ _ hu _ =>
          rw [List.cons_append] at hl
          obtain ⟨rfl,rfl⟩ := List.cons.inj hl
          rw [Done, h] at hu
          cases hu

theorem each_ok : each act l = .ok () l' ↔ List.Forall₂ (Done act) l l' := by
  rw [← advance_finished, each]
  cases hadv : advance act l with
  | mk _ stop =>
    cases stop with
    | none => simp
    | some _ => simp

theorem each_error : each act l = .error e l' ↔ ∃ pre s s' after done,
    l = pre ++ s :: after ∧ List.Forall₂ (Done act) pre done ∧ act s = .error e s' ∧
      l' = done ++ s' :: after := by
  rw [each]
  cases hadv : advance act l with
  | mk done stop =>
    cases stop with
    | none =>
      have hd := advance_finished.mp hadv
      simp only [reduceCtorEq, false_iff]
      rintro ⟨pre,s,s',after,done',hl,hbef,hs,-⟩
      have hst := advance_stopped.mpr ⟨pre,s,s',after,hl,hbef,hs,rfl⟩
      rw [hadv] at hst
      cases hst
    | some stop =>
      obtain ⟨_,_⟩ := stop
      simp only [EStateM.Result.error.injEq]
      constructor
      · rintro ⟨rfl,rfl⟩
        obtain ⟨pre,s,s',after,hl,hbef,hs,rfl⟩ := advance_stopped.mp hadv
        exact ⟨pre,s,s',after,done,hl,hbef,hs,rfl⟩
      · rintro ⟨pre,s,s',after,done',hl,hbef,hs,rfl⟩
        have hst := advance_stopped.mpr ⟨pre,s,s',after,hl,hbef,hs,rfl⟩
        rw [hadv] at hst
        cases hst
        exact ⟨rfl,rfl⟩

section InTurn

def inTurn : List (EStateM ε σ Unit) → EStateM ε σ Unit
  | [] => pure ()
  | act :: acts => do
    act
    inTurn acts

variable {acts : List (EStateM ε σ Unit)}

theorem inTurn_cons {s s'' : σ} : inTurn (act :: acts) s = .ok () s'' ↔
    ∃ s', Done act s s' ∧ Done (inTurn acts) s' s'' := by
  constructor
  · intro h
    obtain ⟨_,s',hfst,hr⟩ := bind_ok.mp h
    exact ⟨s',hfst,hr⟩
  · rintro ⟨s',hfst,hr⟩
    exact bind_ok.mpr ⟨(),s',hfst,hr⟩

theorem forall₂_comp {R S : σ → σ → Prop} {l'' : List σ} :
    (∃ l', List.Forall₂ R l l' ∧ List.Forall₂ S l' l'') ↔
      List.Forall₂ (fun s s'' => ∃ s', R s s' ∧ S s' s'') l l'' := by
  constructor
  · rintro ⟨l',hR,hS⟩
    induction hR generalizing l'' with
    | nil =>
      cases hS
      exact .nil
    | cons hfst _ ih =>
      cases hS with
      | cons hsnd hlat => exact .cons ⟨_,hfst,hsnd⟩ (ih hlat)
  · intro h
    induction h with
    | nil => exact ⟨[],.nil,.nil⟩
    | cons hfst _ ih =>
      obtain ⟨s',hR,hS⟩ := hfst
      obtain ⟨l',hbef,hbeh⟩ := ih
      exact ⟨s' :: l',.cons hR hbef,.cons hS hbeh⟩

theorem inTurn_each : inTurn (acts.map each) l = .ok () l' ↔
    List.Forall₂ (Done (inTurn acts)) l l' := by
  induction acts generalizing l with
  | nil =>
    have hs : (Done (inTurn ([] : List (EStateM ε σ Unit)))) = Eq := by
      funext s s'
      show (EStateM.Result.ok () s = EStateM.Result.ok () s') = (s = s')
      simp
    rw [hs, List.forall₂_eq_eq_eq]
    show EStateM.Result.ok () l = EStateM.Result.ok () l' ↔ l = l'
    simp
  | cons act acts ih =>
    have hst : (Done (inTurn (act :: acts))) =
        fun s s'' => ∃ s', Done act s s' ∧ Done (inTurn acts) s' s'' := by
      funext s s''
      exact propext inTurn_cons
    rw [List.map_cons, inTurn_cons, hst, ← forall₂_comp]
    apply exists_congr
    intro mid
    exact and_congr each_ok ih

end InTurn

section Results

variable {α β : Type} {f : α → Except ε β} {ins : List α}

theorem mem_of_mapM_ok {results : List β} (h : ins.mapM f = .ok results) :
    ∀ b ∈ results, ∃ a ∈ ins, f a = .ok b := by
  induction ins generalizing results with
  | nil =>
    cases h
    simp
  | cons a _ ih =>
    rw [List.mapM_cons] at h
    obtain ⟨b,hb,h⟩ := except_bind_ok.mp h
    obtain ⟨_,ho,h⟩ := except_bind_ok.mp h
    cases h
    refine List.forall_mem_cons.mpr ⟨⟨a,List.mem_cons_self,hb⟩,?_⟩
    intro b' hb'
    obtain ⟨a',ha',hf⟩ := ih ho b' hb'
    exact ⟨a',List.mem_cons_of_mem a ha',hf⟩

theorem exists_of_mapM_error (h : ins.mapM f = .error e) : ∃ a ∈ ins, f a = .error e := by
  induction ins with
  | nil => cases h
  | cons a _ ih =>
    rw [List.mapM_cons] at h
    rcases except_bind_error.mp h with hfst | ⟨b,-,h⟩
    · exact ⟨a,List.mem_cons_self,hfst⟩
    · rcases except_bind_error.mp h with hr | ⟨os,-,h⟩
      · obtain ⟨a',ha',hf⟩ := ih hr
        exact ⟨a',List.mem_cons_of_mem a ha',hf⟩
      · cases h

end Results

end Orbis.StateList
