import Mathlib.Order.Basic
import Mathlib.Tactic

/-!
# Positions in a container

An iterator is a list taken apart at one item: what lies before it, the item
and what lies behind. Erasing or replacing the item needs no index then, and
what a search returns is said by the parts. The first item with a property and
the first among the least items with a property are found this way.
-/

set_option autoImplicit false

namespace Orbis.ListCursor

structure Cursor (α : Type) where
  before : List α
  item : α
  after : List α

variable {α β : Type} {c : Cursor α} {a : α}

namespace Cursor

def list (c : Cursor α) : List α := c.before ++ c.item :: c.after

def erase (c : Cursor α) : List α := c.before ++ c.after

def replace (c : Cursor α) (a : α) : List α := c.before ++ a :: c.after

def push (a : α) (c : Cursor α) : Cursor α := { c with before := a :: c.before }

@[simp] theorem push_list (a : α) (c : Cursor α) : (c.push a).list = a :: c.list := rfl

theorem mem_list : a ∈ c.list ↔ a ∈ c.before ∨ a = c.item ∨ a ∈ c.after := by
  rw [list, List.mem_append, List.mem_cons]

theorem mem_erase : a ∈ c.erase ↔ a ∈ c.before ∨ a ∈ c.after :=
  List.mem_append

theorem item_mem (c : Cursor α) : c.item ∈ c.list := mem_list.mpr (.inr (.inl rfl))

theorem erase_subset (c : Cursor α) : c.erase ⊆ c.list := by
  intro a ha
  rcases mem_erase.mp ha with ha | ha
  · exact mem_list.mpr (.inl ha)
  · exact mem_list.mpr (.inr (.inr ha))

theorem perm_list (c : Cursor α) : c.list.Perm (c.item :: c.erase) := List.perm_middle

theorem mem_replace {a b : α} : b ∈ c.replace a ↔ b = a ∨ b ∈ c.erase := by
  have hp : (c.replace a).Perm (a :: c.erase) := List.perm_middle
  rw [hp.mem_iff, List.mem_cons]

theorem erase_length (c : Cursor α) : c.list.length = c.erase.length + 1 := by
  rw [list, erase, List.length_append, List.length_append, List.length_cons, Nat.add_assoc]

variable {p : α → Bool}

theorem filter_erase (c : Cursor α) (h : p c.item = false) :
    c.erase.filter p = c.list.filter p := by
  rw [erase, list, List.filter_append, List.filter_append, List.filter_cons_of_neg]
  rw [h]
  exact Bool.false_ne_true

theorem filter_replace (c : Cursor α) (h : p a = false) :
    (c.replace a).filter p = c.erase.filter p := by
  rw [erase, replace, List.filter_append, List.filter_append, List.filter_cons_of_neg]
  rw [h]
  exact Bool.false_ne_true

def narrow (p : α → Bool) (c : Cursor α) : Cursor α := ⟨c.before.filter p, c.item, c.after.filter p⟩

theorem narrow_list (h : p c.item = true) : (c.narrow p).list = c.list.filter p := by
  show _ = (c.before ++ c.item :: c.after).filter p
  rw [List.filter_append, List.filter_cons_of_pos h]
  rfl

def map (f : α → β) (c : Cursor α) : Cursor β := ⟨c.before.map f, f c.item, c.after.map f⟩

theorem map_list (f : α → β) (c : Cursor α) : (c.map f).list = c.list.map f := by
  show _ = (c.before ++ c.item :: c.after).map f
  rw [List.map_append]
  rfl

theorem map_erase (f : α → β) (c : Cursor α) : (c.map f).erase = c.erase.map f := by
  show _ = (c.before ++ c.after).map f
  rw [List.map_append]
  rfl

theorem filter_found (hi : p c.item = true) (hbef : ∀ a ∈ c.before, p a = false) :
    c.list.filter p = c.item :: c.erase.filter p := by
  have hnil : c.before.filter p = [] := by
    apply List.filter_eq_nil_iff.mpr
    intro a ha
    rw [hbef a ha]
    exact Bool.false_ne_true
  rw [list, erase, List.filter_append, List.filter_append, hnil,
    List.filter_cons_of_pos hi, List.nil_append, List.nil_append]

theorem compare {c d : Cursor α} (h : c.list = d.list) :
    c = d ∨ d.item ∈ c.before ∧ c.item ∈ d.after ∨ d.item ∈ c.after ∧ c.item ∈ d.before := by
  obtain ⟨pre,item,after⟩ := c
  obtain ⟨pre',item',after'⟩ := d
  have h : pre ++ item :: after = pre' ++ item' :: after' := h
  rcases List.append_eq_append_iff.mp h with ⟨l,rfl,hl⟩ | ⟨l,rfl,hl⟩
  · cases l with
    | nil =>
      obtain ⟨rfl,rfl⟩ := List.cons.inj hl
      left
      rw [List.append_nil]
    | cons _ _ =>
      obtain ⟨rfl,rfl⟩ := List.cons.inj hl
      right
      right
      simp
  · cases l with
    | nil =>
      obtain ⟨rfl,rfl⟩ := List.cons.inj hl
      left
      rw [List.append_nil]
    | cons _ _ =>
      obtain ⟨rfl,rfl⟩ := List.cons.inj hl
      right
      left
      simp

theorem first_unique {p : α → Prop} {c d : Cursor α} (h : c.list = d.list) (hc : p c.item)
    (hbef : ∀ a ∈ c.before, ¬ p a) (hd : p d.item) (hbef' : ∀ a ∈ d.before, ¬ p a) : c = d := by
  rcases compare h with heq | ⟨hmem,-⟩ | ⟨-,hmem⟩
  · exact heq
  · exact absurd hd (hbef _ hmem)
  · exact absurd hc (hbef' _ hmem)

theorem list_ext {f : α → β} {l l' : List α} (h : l.map f = l'.map f)
    (hit : ∀ c c' : Cursor α, c.list = l → c'.list = l' → c.map f = c'.map f →
      c.item = c'.item) : l = l' := by
  have hlen : l.length = l'.length := by
    have := congrArg List.length h
    rwa [List.length_map, List.length_map] at this
  apply List.ext_getElem hlen
  intro i hi hi'
  have hspl : ∀ (l : List α) (hi : i < l.length),
      Cursor.list ⟨l.take i, l[i], l.drop (i + 1)⟩ = l := by
    intro l hi
    rw [list, ← List.drop_eq_getElem_cons hi, List.take_append_drop]
  apply hit ⟨l.take i, l[i], l.drop (i + 1)⟩ ⟨l'.take i, l'[i], l'.drop (i + 1)⟩ (hspl l hi)
    (hspl l' hi')
  unfold map
  dsimp only
  rw [List.map_take, List.map_take, List.map_drop, List.map_drop, h]
  congr 1
  have hget := congrArg (fun m => m[i]?) h
  simpa [hi, hi'] using hget

end Cursor

section Find

def find (p : α → Bool) : List α → Option (Cursor α)
  | [] => none
  | a :: l => if p a then some ⟨[], a, l⟩ else (find p l).map (Cursor.push a)

variable {p : α → Bool} {l : List α}

theorem find_none : find p l = none ↔ ∀ a ∈ l, p a = false := by
  induction l with
  | nil => simp [find]
  | cons a _ ih =>
    rw [find]
    by_cases h : p a
    · simp [h]
    · simp [h, ih]

theorem find_some (h : find p l = some c) :
    c.list = l ∧ p c.item = true ∧ ∀ a ∈ c.before, p a = false := by
  induction l generalizing c with
  | nil => cases h
  | cons a _ ih =>
    rw [find] at h
    by_cases ha : p a
    · rw [if_pos ha] at h
      cases h
      exact ⟨rfl,ha,by simp⟩
    · rw [if_neg ha] at h
      obtain ⟨_,hd,rfl⟩ := Option.map_eq_some_iff.mp h
      obtain ⟨hl,hi,hbef⟩ := ih hd
      refine ⟨by rw [Cursor.push_list, hl],hi,?_⟩
      intro b hb
      rcases List.mem_cons.mp hb with rfl | hb
      · exact Bool.eq_false_iff.mpr ha
      · exact hbef b hb

end Find

section Loops

variable {σ γ ρ : Type} (p : α → Bool) (view : σ → List α) (step : σ → Cursor α → σ)

def eraseFound : ℕ → σ → σ
  | 0, s => s
  | rounds + 1, s =>
    match find p (view s) with
    | none => s
    | some c => eraseFound rounds (step s c)

variable {p view step}

theorem eraseFound_keeps {I : σ → Prop} (hs : ∀ s c, c.list = view s → I s → I (step s c)) (rs : ℕ)
    {s : σ} (h : I s) : I (eraseFound p view step rs s) := by
  induction rs generalizing s with
  | zero => exact h
  | succ _ ih =>
    rw [eraseFound]
    cases hf : find p (view s) with
    | none => exact h
    | some c => exact ih (hs s c (find_some hf).1 h)

variable (f : α → γ) (im : σ → List γ) (q : γ → Bool) (rest : σ → ρ) (pass : ρ → γ → ρ)

/-- Where a round also works on another part of the state, that part sees the
items with the property in their order. Items are compared through `f`, so a
round may change of the other items what `f` forgets. -/
theorem eraseFound_image (him : ∀ s, im s = (view s).map f) (hq : ∀ a, q (f a) = p a)
    (hs : ∀ s c, c.list = view s →
      im (step s c) = (c.map f).erase ∧ rest (step s c) = pass (rest s) (f c.item)) (rs : ℕ)
    (s : σ) (h : (im s).length ≤ rs) :
    im (eraseFound p view step rs s) = (im s).filter (fun b => !q b) ∧
      rest (eraseFound p view step rs s) = ((im s).filter q).foldl pass (rest s) := by
  induction rs generalizing s with
  | zero =>
    have hnil : im s = [] := List.length_eq_zero_iff.mp (Nat.le_zero.mp h)
    rw [hnil]
    exact ⟨hnil,rfl⟩
  | succ rs ih =>
    rw [eraseFound]
    cases hf : find p (view s) with
    | none =>
      have hn : ∀ b ∈ im s, q b = false := by
        intro b hb
        rw [him] at hb
        obtain ⟨a,ha,rfl⟩ := List.mem_map.mp hb
        rw [hq]
        exact find_none.mp hf a ha
      have hk : (im s).filter (fun b => !q b) = im s := by
        apply List.filter_eq_self.mpr
        intro b hb
        rw [hn b hb]
        rfl
      have hnil : (im s).filter q = [] := by
        apply List.filter_eq_nil_iff.mpr
        intro b hb
        rw [hn b hb]
        exact Bool.false_ne_true
      rw [hk, hnil]
      exact ⟨rfl,rfl⟩
    | some c =>
      obtain ⟨hl,hi,hbef⟩ := find_some hf
      obtain ⟨hv,hr⟩ := hs s c hl
      have hwh : im s = (c.map f).list := by rw [him, Cursor.map_list, hl]
      have hlen := (c.map f).erase_length
      have hsh : (im (step s c)).length ≤ rs := by
        rw [hv]
        rw [hwh] at h
        omega
      have hfd : q (c.map f).item = true := (hq c.item).trans hi
      have hsk : ∀ b ∈ (c.map f).before, q b = false := by
        intro b hb
        obtain ⟨a,ha,rfl⟩ := List.mem_map.mp hb
        exact (hq a).trans (hbef a ha)
      have hout : (!q (c.map f).item) = false := congrArg Bool.not hfd
      dsimp only
      rw [(ih _ hsh).1, (ih _ hsh).2, hv, hr, hwh,
        Cursor.filter_found hfd hsk, ← Cursor.filter_erase (c.map f) hout]
      exact ⟨rfl,rfl⟩

end Loops

section Least

variable [LinearOrder β]

def least (key : α → β) (p : α → Bool) : List α → Option (Cursor α)
  | [] => none
  | a :: l =>
    match least key p l with
    | none => if p a then some ⟨[], a, l⟩ else none
    | some c => if p a ∧ key a ≤ key c.item then some ⟨[], a, l⟩ else some (c.push a)

structure Leads (key : α → β) (p : α → Bool) (c : Cursor α) : Prop where
  holds : p c.item = true
  before : ∀ a ∈ c.before, p a = true → key c.item < key a
  after : ∀ a ∈ c.after, p a = true → key c.item ≤ key a

variable {key : α → β} {p : α → Bool} {l : List α}

theorem Leads.least (h : Leads key p c) (ha : a ∈ c.list) (hp : p a = true) :
    key c.item ≤ key a := by
  rcases Cursor.mem_list.mp ha with ha | rfl | ha
  · exact (h.before a ha hp).le
  · exact le_rfl
  · exact h.after a ha hp

theorem Leads.narrow (h : Leads key p c) : Leads key (fun _ => true) (c.narrow p) where
  holds := rfl
  before := fun a ha _ => h.before a (List.mem_filter.mp ha).1 (List.mem_filter.mp ha).2
  after := fun a ha _ => h.after a (List.mem_filter.mp ha).1 (List.mem_filter.mp ha).2

theorem Leads.of_narrow (hi : p c.item = true) (h : Leads key (fun _ => true) (c.narrow p)) :
    Leads key p c where
  holds := hi
  before := fun a ha hp => h.before a (List.mem_filter.mpr ⟨ha,hp⟩) rfl
  after := fun a ha hp => h.after a (List.mem_filter.mpr ⟨ha,hp⟩) rfl

theorem Leads.unique {c d : Cursor α} (hc : Leads key p c) (hd : Leads key p d)
    (h : c.list = d.list) : c = d := by
  rcases Cursor.compare h with heq | ⟨hbef,ha⟩ | ⟨ha,hbef⟩
  · exact heq
  · exact absurd (hc.before _ hbef hd.holds) (not_lt.mpr (hd.after _ ha hc.holds))
  · exact absurd (hd.before _ hbef hc.holds) (not_lt.mpr (hc.after _ ha hd.holds))

theorem least_none : least key p l = none ↔ ∀ a ∈ l, p a = false := by
  induction l with
  | nil => simp [least]
  | cons a l ih =>
    rw [least]
    cases hl : least key p l with
    | none =>
      have hr := ih.mp hl
      by_cases h : p a
      · simp [h]
      · simpa [h] using hr
    | some _ =>
      have hs : ¬ ∀ b ∈ l, p b = false := fun hall => by
        rw [ih.mpr hall] at hl
        cases hl
      dsimp only
      constructor
      · intro hn
        split_ifs at hn
      · intro hall
        exact absurd (fun b hb => hall b (List.mem_cons_of_mem _ hb)) hs

theorem least_some (h : least key p l = some c) : c.list = l ∧ Leads key p c := by
  induction l generalizing c with
  | nil => cases h
  | cons _ l ih =>
    rw [least] at h
    cases hl : least key p l with
    | none =>
      rw [hl] at h
      have hr := least_none.mp hl
      dsimp only at h
      split_ifs at h with hp
      cases h
      refine ⟨rfl,hp,by simp,?_⟩
      intro b hb hpb
      rw [hr b hb] at hpb
      cases hpb
    | some _ =>
      rw [hl] at h
      obtain ⟨hli,hlds⟩ := ih hl
      dsimp only at h
      split_ifs at h with hp
      · cases h
        refine ⟨rfl,hp.1,by simp,?_⟩
        intro b hb hpb
        exact hp.2.trans (hlds.least (hli ▸ hb) hpb)
      · cases h
        refine ⟨by rw [Cursor.push_list, hli],hlds.holds,?_,hlds.after⟩
        intro b hb hpb
        rcases List.mem_cons.mp hb with rfl | hb
        · exact lt_of_not_ge fun hle => hp ⟨hpb,hle⟩
        · exact hlds.before b hb hpb

end Least

end Orbis.ListCursor
