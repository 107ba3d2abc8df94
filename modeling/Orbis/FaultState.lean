import Mathlib.Tactic

/-!
# Computations over a state that may stop in a fault

A computation is a member of `EStateM ε σ`: it returns a value or stops in
a fault, and in both cases leaves a state behind. The rules below take a
composed computation apart, step by step, and carry an invariant of the
state through it, also along the paths that stop.
-/

set_option autoImplicit false

namespace Orbis.FaultState

variable {ε σ τ α β : Type} {x : EStateM ε σ α} {f : α → EStateM ε σ β} {a : α} {e : ε}

def left : EStateM.Result ε σ α → σ
  | .ok _ s => s
  | .error _ s => s

@[simp] theorem left_ok (a : α) (s : σ) : left (.ok a s : EStateM.Result ε σ α) = s := rfl

@[simp] theorem left_error (e : ε) (s : σ) : left (.error e s : EStateM.Result ε σ α) = s := rfl

def value : EStateM.Result ε σ α → Option α
  | .ok a _ => some a
  | .error _ _ => none

theorem eq_ok_of_value {r : EStateM.Result ε σ α} (h : value r = some a) : r = .ok a (left r) := by
  cases r with
  | ok _ _ =>
    cases h
    rfl
  | error _ _ => cases h

def fault : EStateM.Result ε σ α → Option ε
  | .ok _ _ => none
  | .error e _ => some e

theorem eq_error_of_fault {r : EStateM.Result ε σ α} (h : fault r = some e) :
    r = .error e (left r) := by
  cases r with
  | ok _ _ => cases h
  | error _ _ =>
    cases h
    rfl

theorem bind_run {s : σ} :
    (x >>= f) s = match x s with
      | .ok a t => f a t
      | .error e t => .error e t := rfl

@[simp] theorem bind_ok {s t : σ} {b : β} :
    (x >>= f) s = .ok b t ↔ ∃ a u, x s = .ok a u ∧ f a u = .ok b t := by
  rw [bind_run]
  cases hx : x s with
  | ok _ _ => simp
  | error _ _ => simp

@[simp] theorem bind_error {s t : σ} : (x >>= f) s = .error e t ↔
      x s = .error e t ∨ ∃ a u, x s = .ok a u ∧ f a u = .error e t := by
  rw [bind_run]
  cases hx : x s with
  | ok _ _ => simp
  | error _ _ => simp

theorem bind_of_ok {s u : σ} (hx : x s = .ok a u) : (x >>= f) s = f a u := by
  rw [bind_run, hx]

theorem bind_of_error {s u : σ} (hx : x s = .error e u) : (x >>= f) s = .error e u := by
  rw [bind_run, hx]

@[simp] theorem pure_run (a : α) (s : σ) : (pure a : EStateM ε σ α) s = .ok a s := rfl

@[simp] theorem throw_run (e : ε) (s : σ) : (throw e : EStateM ε σ α) s = .error e s := rfl

@[simp] theorem get_run (s : σ) : (get : EStateM ε σ σ) s = .ok s s := rfl

@[simp] theorem set_run (s t : σ) : (set t : EStateM ε σ PUnit) s = .ok ⟨⟩ t := rfl

@[simp] theorem modify_run {f : σ → σ} (s : σ) :
    (modify f : EStateM ε σ PUnit) s = .ok ⟨⟩ (f s) := rfl

theorem get_bind {f : σ → EStateM ε σ β} (s : σ) : (get >>= f) s = f s s := rfl

theorem modify_bind {g : σ → σ} {f : PUnit → EStateM ε σ β} (s : σ) :
    (modify g >>= f) s = f ⟨⟩ (g s) := rfl

@[simp] theorem except_bind_ok {x : Except ε α} {f : α → Except ε β} {b : β} :
    (x >>= f) = .ok b ↔ ∃ a, x = .ok a ∧ f a = .ok b := by
  cases x with
  | ok _ => simp [bind, Except.bind]
  | error _ => simp [bind, Except.bind]

@[simp] theorem except_bind_error {x : Except ε α} {f : α → Except ε β} :
    (x >>= f) = .error e ↔ x = .error e ∨ ∃ a, x = .ok a ∧ f a = .error e := by
  cases x with
  | ok _ => simp [bind, Except.bind]
  | error _ => simp [bind, Except.bind]

def reading (f : σ → Except ε α) : EStateM ε σ α := fun s =>
  match f s with
  | .ok a => .ok a s
  | .error e => .error e s

@[simp] theorem reading_ok (f : σ → Except ε α) (s t : σ) (a : α) :
    reading f s = .ok a t ↔ f s = .ok a ∧ s = t := by
  unfold reading
  cases f s with
  | ok _ => simp
  | error _ => simp

@[simp] theorem reading_error (f : σ → Except ε α) (s t : σ) (e : ε) :
    reading f s = .error e t ↔ f s = .error e ∧ s = t := by
  unfold reading
  cases f s with
  | ok _ => simp
  | error _ => simp

def within (part : σ → τ) (put : σ → τ → σ) (x : EStateM ε τ α) : EStateM ε σ α := fun s =>
  match x (part s) with
  | .ok a t => .ok a (put s t)
  | .error e t => .error e (put s t)

@[simp] theorem within_ok (part : σ → τ) (put : σ → τ → σ) (x : EStateM ε τ α) (s s' : σ) (a : α) :
    within part put x s = .ok a s' ↔ ∃ t, x (part s) = .ok a t ∧ put s t = s' := by
  unfold within
  cases x (part s) with
  | ok _ _ => simp
  | error _ _ => simp

@[simp] theorem within_error (part : σ → τ) (put : σ → τ → σ) (x : EStateM ε τ α) (s s' : σ)
    (e : ε) : within part put x s = .error e s' ↔ ∃ t, x (part s) = .error e t ∧ put s t = s' := by
  unfold within
  cases x (part s) with
  | ok _ _ => simp
  | error _ _ => simp

def Yields (E : ε → Prop) (Q : α → Prop) (x : Except ε α) : Prop :=
  (∀ a, x = .ok a → Q a) ∧ ∀ e, x = .error e → E e

/-- A run that returns leaves a state with the invariant and a value with the
given property, and a fault is one that `F` allows in the state it leaves. -/
def Ends (I : σ → Prop) (F : ε → σ → Prop) (Q : α → Prop) (r : EStateM.Result ε σ α) : Prop :=
  (∀ a t, r = .ok a t → I t ∧ Q a) ∧ ∀ e t, r = .error e t → F e t

def Guards (I : σ → Prop) (F : ε → σ → Prop) (Q : α → Prop) (x : EStateM ε σ α) : Prop :=
  ∀ s, I s → Ends I F Q (x s)

/-- Every run from a state with the invariant leaves a state with the
invariant. A run that returns does so with a value that has the given
property, and a run that stops does so in a tolerated fault. -/
def Keeps (I : σ → Prop) (E : ε → Prop) (Q : α → Prop) (x : EStateM ε σ α) : Prop :=
  ∀ s, I s → (∀ a t, x s = .ok a t → I t ∧ Q a) ∧ (∀ e t, x s = .error e t → I t ∧ E e)

section Rules

variable {I : σ → Prop} {E : ε → Prop} {F : ε → σ → Prop} {Q : α → Prop} {R : β → Prop}

theorem yields_ok (ha : Q a) : Yields E Q (.ok a : Except ε α) := by
  refine ⟨?_,?_⟩
  · intro b h
    cases h
    exact ha
  · intro e h
    cases h

theorem yields_error (he : E e) : Yields E Q (.error e : Except ε α) := by
  refine ⟨?_,?_⟩
  · intro b h
    cases h
  · intro f h
    cases h
    exact he

theorem yields_bind {x : Except ε α} {f : α → Except ε β} (hx : Yields E Q x)
    (hf : ∀ a, Q a → Yields E R (f a)) : Yields E R (x >>= f) := by
  cases x with
  | ok a => exact hf a (hx.1 a rfl)
  | error e => exact yields_error (hx.2 e rfl)

theorem Keeps.left (hx : Keeps I E Q x) {s : σ} (hs : I s) : I (left (x s)) := by
  cases h : x s with
  | ok a t => exact ((hx s hs).1 a t h).1
  | error e t => exact ((hx s hs).2 e t h).1

theorem guards_pure (ha : Q a) : Guards I F Q (pure a : EStateM ε σ α) := by
  intro s hs
  constructor
  · intro b t h
    cases h
    exact ⟨hs,ha⟩
  · intro e t h
    cases h

theorem keeps_pure (ha : Q a) : Keeps I E Q (pure a : EStateM ε σ α) := guards_pure ha

theorem guards_throw (he : ∀ s, I s → F e s) : Guards I F Q (throw e : EStateM ε σ α) := by
  intro s hs
  constructor
  · intro b t h
    cases h
  · intro f t h
    cases h
    exact he s hs

theorem keeps_throw (he : E e) : Keeps I E Q (throw e : EStateM ε σ α) :=
  guards_throw fun _ hs => ⟨hs,he⟩

theorem ends_bind {s : σ} (hx : Ends I F Q (x s)) (hf : ∀ a t, I t → Q a → Ends I F R (f a t)) :
    Ends I F R ((x >>= f) s) := by
  rw [bind_run]
  cases h : x s with
  | ok a t =>
    obtain ⟨ht,ha⟩ := hx.1 a t h
    exact hf a t ht ha
  | error e t =>
    constructor
    · intro b u heq
      cases heq
    · intro e' u heq
      cases heq
      exact hx.2 e t h

theorem guards_bind (hx : Guards I F Q x) (hf : ∀ a, Q a → Guards I F R (f a)) :
    Guards I F R (x >>= f) :=
  fun s hs => ends_bind (hx s hs) fun a t ht ha => hf a ha t ht

theorem keeps_bind (hx : Keeps I E Q x) (hf : ∀ a, Q a → Keeps I E R (f a)) :
    Keeps I E R (x >>= f) :=
  guards_bind hx hf

theorem keeps_reading {f : σ → Except ε α} (hf : ∀ s, I s → Yields E Q (f s)) :
    Keeps I E Q (reading f) := by
  intro s hs
  refine ⟨?_,?_⟩
  · intro a t h
    obtain ⟨ha,rfl⟩ := (reading_ok f s t a).mp h
    exact ⟨hs,(hf s hs).1 a ha⟩
  · intro e t h
    obtain ⟨he,rfl⟩ := (reading_error f s t e).mp h
    exact ⟨hs,(hf s hs).2 e he⟩

theorem guards_get : Guards I F I (get : EStateM ε σ σ) :=
  fun s hs => guards_pure (Q := I) hs s hs

theorem keeps_get : Keeps I E I (get : EStateM ε σ σ) := guards_get

theorem guards_modify {f : σ → σ} (hf : ∀ s, I s → I (f s)) :
    Guards I F (fun _ => True) (modify f : EStateM ε σ PUnit) :=
  fun s hs => guards_pure trivial (f s) (hf s hs)

theorem keeps_modify {f : σ → σ} (hf : ∀ s, I s → I (f s)) :
    Keeps I E (fun _ => True) (modify f : EStateM ε σ PUnit) := guards_modify hf

theorem keeps_set {t : σ} (ht : I t) : Keeps I E (fun _ => True) (set t : EStateM ε σ PUnit) :=
  keeps_modify (f := fun _ => t) fun _ _ => ht

theorem keeps_within {J : τ → Prop} {part : σ → τ} {put : σ → τ → σ} {x : EStateM ε τ α}
    (hx : Keeps J E Q x) (hp : ∀ s, I s → J (part s))
    (hput : ∀ s t, I s → J t → I (put s t)) : Keeps I E Q (within part put x) := by
  intro s hs
  refine ⟨?_,?_⟩
  · intro a t h
    obtain ⟨u,hu,rfl⟩ := (within_ok part put x s t a).mp h
    obtain ⟨hJ,ha⟩ := (hx _ (hp s hs)).1 a u hu
    exact ⟨hput s u hs hJ,ha⟩
  · intro e t h
    obtain ⟨u,hu,rfl⟩ := (within_error part put x s t e).mp h
    obtain ⟨hJ,he⟩ := (hx _ (hp s hs)).2 e u hu
    exact ⟨hput s u hs hJ,he⟩

end Rules

section Blind

variable {R : σ → σ → Prop}

def Alike (R : σ → σ → Prop) : EStateM.Result ε σ α → EStateM.Result ε σ α → Prop
  | .ok a s, .ok b t => a = b ∧ R s t
  | .error e s, .error f t => e = f ∧ R s t
  | _, _ => False

def Blind (R : σ → σ → Prop) (x : EStateM ε σ α) : Prop := ∀ s t, R s t → Alike R (x s) (x t)

theorem Alike.left {r r' : EStateM.Result ε σ α} (h : Alike R r r') : R (left r) (left r') := by
  cases r with
  | ok _ _ =>
    cases r' with
    | ok _ _ => exact h.2
    | error _ _ => exact h.elim
  | error _ _ =>
    cases r' with
    | ok _ _ => exact h.elim
    | error _ _ => exact h.2

theorem blind_pure (a : α) : Blind R (pure a : EStateM ε σ α) := fun _ _ h => ⟨rfl,h⟩

theorem blind_modify {f : σ → σ} (hf : ∀ s t, R s t → R (f s) (f t)) :
    Blind R (modify f : EStateM ε σ PUnit) := fun s t h => ⟨rfl,hf s t h⟩

theorem blind_bind (hx : Blind R x) (hf : ∀ a, Blind R (f a)) : Blind R (x >>= f) := by
  intro s t h
  have hfst := hx s t h
  rw [bind_run, bind_run]
  cases hs : x s with
  | ok a u =>
    cases ht : x t with
    | ok _ v =>
      rw [hs, ht] at hfst
      obtain ⟨rfl,hR⟩ := hfst
      exact hf a u v hR
    | error _ _ =>
      rw [hs, ht] at hfst
      exact hfst.elim
  | error _ _ =>
    cases ht : x t with
    | ok _ _ =>
      rw [hs, ht] at hfst
      exact hfst.elim
    | error _ _ =>
      rw [hs, ht] at hfst
      exact hfst

theorem blind_within {part : σ → τ} {put : σ → τ → σ} (x : EStateM ε τ α)
    (hp : ∀ s t, R s t → part s = part t) (hput : ∀ s t u, R s t → R (put s u) (put t u)) :
    Blind R (within part put x) := by
  intro s t h
  unfold within
  rw [hp s t h]
  cases x (part t) with
  | ok _ u => exact ⟨rfl,hput s t u h⟩
  | error _ u => exact ⟨rfl,hput s t u h⟩

end Blind

end Orbis.FaultState
