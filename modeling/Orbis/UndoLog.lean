import Mathlib.Logic.Function.Basic
import Mathlib.Data.List.Basic
import Orbis.FaultState

/-!
# Replacing objects with a log of their old states

Objects are replaced one after another by what is read from their stored
forms. The form of the state before goes into a log, and after a failure the
log is played from its start. So an object gets back the state before its
last replacement, not the one before the first, and an object whose own
reading failed before any other replacement of it gets nothing back.
-/

set_option autoImplicit false

namespace Orbis.UndoLog

open FaultState

variable {κ : Type} [DecidableEq κ] {σ : κ → Type} {ε Blob : Type} {blob : Blob}

structure Format (σ : κ → Type) (ε Blob : Type) where
  load : (k : κ) → Blob → EStateM ε (σ k) Unit
  save : (k : κ) → σ k → Blob

structure Logged (σ : κ → Type) (Blob : Type) where
  store : ∀ k, σ k
  log : List (κ × Blob)

namespace Format

variable (F : Format σ ε Blob)

def set (k : κ) (blob : Blob) : EStateM ε (∀ k, σ k) Unit :=
  within (fun store => store k) (fun store s => Function.update store k s) (F.load k blob)

def replace (k : κ) (blob : Blob) : EStateM ε (Logged σ Blob) Unit := do
  let previous ← (fun l => F.save k (l.store k)) <$> get
  within Logged.store (fun l store => { l with store }) (F.set k blob)
  modify fun l => { l with log := l.log ++ [(k, previous)] }

def replaceAll : List (κ × Blob) → EStateM ε (Logged σ Blob) Unit
  | [] => pure ()
  | (k, blob) :: rest => do
    F.replace k blob
    replaceAll rest

def replay : List (κ × Blob) → EStateM ε (∀ k, σ k) Unit
  | [] => pure ()
  | (k, blob) :: rest => do
    F.set k blob
    replay rest

def undoing (act : EStateM ε (Logged σ Blob) Unit) : EStateM ε (∀ k, σ k) Unit := fun store =>
  match act ⟨store, []⟩ with
  | .ok _ l => .ok () l.store
  | .error e l =>
    match F.replay l.log l.store with
    | .ok _ store => .error e store
    | .error e store => .error e store

theorem set_of_ok {k : κ} {store : ∀ k, σ k} {s : σ k} (h : F.load k blob (store k) = .ok () s) :
    F.set k blob store = .ok () (Function.update store k s) :=
  (within_ok _ _ _ _ _ _).mpr ⟨s,h,rfl⟩

theorem replace_of_ok {k : κ} {l : Logged σ Blob} {s : σ k}
    (h : F.load k blob (l.store k) = .ok () s) : F.replace k blob l =
      .ok () ⟨Function.update l.store k s, l.log ++ [(k, F.save k (l.store k))]⟩ := by
  have hset : within Logged.store (fun l store => { l with store }) (F.set k blob) l =
      .ok () { l with store := Function.update l.store k s } :=
    (within_ok _ _ _ _ _ _).mpr ⟨_,F.set_of_ok h,rfl⟩
  exact bind_ok.mpr ⟨_,_,rfl,bind_ok.mpr ⟨_,_,hset,rfl⟩⟩

theorem replace_of_error {k : κ} {l : Logged σ Blob} {e : ε} {s : σ k}
    (h : F.load k blob (l.store k) = .error e s) :
    F.replace k blob l = .error e ⟨Function.update l.store k s, l.log⟩ := by
  have hset : F.set k blob l.store = .error e (Function.update l.store k s) :=
    (within_error _ _ _ _ _ _).mpr ⟨s,h,rfl⟩
  refine bind_error.mpr (.inr ⟨_,_,rfl,bind_error.mpr (.inl ?_)⟩)
  exact (within_error _ _ _ _ _ _).mpr ⟨_,hset,rfl⟩

end Format

section Entries

variable {store : ∀ k, σ k} {k : κ}

def overlay (entries : List (Σ k, σ k)) (store : ∀ k, σ k) : ∀ k, σ k :=
  entries.foldl (fun store entry => Function.update store entry.1 entry.2) store

def valuesOf (k : κ) : List (Σ k, σ k) → List (σ k)
  | [] => []
  | ⟨k', s⟩ :: rest => if h : k' = k then (h ▸ s) :: valuesOf k rest else valuesOf k rest

def history (store : ∀ k, σ k) : List (Σ k, σ k) → List (Σ k, σ k)
  | [] => []
  | ⟨k, s⟩ :: rest => ⟨k, store k⟩ :: history (Function.update store k s) rest

theorem valuesOf_cons_self {s : σ k} {rest : List (Σ k, σ k)} :
    valuesOf k (⟨k,s⟩ :: rest) = s :: valuesOf k rest := dif_pos rfl

theorem valuesOf_cons_ne {k' : κ} (h : k' ≠ k) (s : σ k') (rest : List (Σ k, σ k)) :
    valuesOf k (⟨k',s⟩ :: rest) = valuesOf k rest := dif_neg h

theorem overlay_apply {es : List (Σ k, σ k)} :
    overlay es store k = (valuesOf k es).getLast?.getD (store k) := by
  induction es generalizing store with
  | nil => rfl
  | cons e _ ih =>
    obtain ⟨k',s⟩ := e
    refine (@ih (Function.update store k' s)).trans ?_
    by_cases h : k' = k
    · subst h
      rw [valuesOf_cons_self, Function.update_self, List.getLast?_cons, Option.getD_some]
    · rw [valuesOf_cons_ne h, Function.update_of_ne (Ne.symm h)]

theorem valuesOf_history {es : List (Σ k, σ k)} :
    valuesOf k (history store es) = (store k :: valuesOf k es).dropLast := by
  induction es generalizing store with
  | nil => rfl
  | cons e _ ih =>
    obtain ⟨k',_⟩ := e
    rw [history]
    by_cases h : k' = k
    · subst h
      rw [valuesOf_cons_self, valuesOf_cons_self, ih, Function.update_self, List.dropLast_cons_cons]
    · rw [valuesOf_cons_ne h, valuesOf_cons_ne h, ih, Function.update_of_ne (Ne.symm h)]

end Entries

section Scripts

structure Script (κ ε Blob : Type) where
  calls : List (κ × Blob)
  fault : Option ε

variable {R : ∀ k, σ k → σ k → Prop} {decode : (k : κ) → Blob → Except ε (σ k)}
  {cls : List (κ × Blob)} {store : ∀ k, σ k} {k : κ}

def Script.play (F : Format σ ε Blob) (script : Script κ ε Blob) :
    EStateM ε (Logged σ Blob) Unit := do
  F.replaceAll script.calls
  match script.fault with
  | none => pure ()
  | some e => throw e

structure Format.Lawful (F : Format σ ε Blob) (R : ∀ k, σ k → σ k → Prop)
    (decode : (k : κ) → Blob → Except ε (σ k)) : Prop where
  load_ok : ∀ k blob s s', F.load k blob s = .ok () s' ↔ decode k blob = .ok s'
  restores : ∀ k s, ∃ s', decode k (F.save k s) = .ok s' ∧ R k s' s
  equivalence : ∀ k, Equivalence (R k)

def accepted (decode : (k : κ) → Blob → Except ε (σ k)) : List (κ × Blob) → List (Σ k, σ k)
  | [] => []
  | (k, blob) :: rest =>
    match decode k blob with
    | .ok s => ⟨k, s⟩ :: accepted decode rest
    | .error _ => []

def refused (decode : (k : κ) → Blob → Except ε (σ k)) : List (κ × Blob) → Option (κ × Blob)
  | [] => none
  | (k, blob) :: rest =>
    match decode k blob with
    | .ok _ => refused decode rest
    | .error _ => some (k, blob)

omit [DecidableEq κ] in
theorem refused_error {k : κ} {blob : Blob} (h : refused decode cls = some (k, blob)) :
    ∃ e, decode k blob = .error e := by
  induction cls with
  | nil => cases h
  | cons call _ ih =>
    obtain ⟨k',blob'⟩ := call
    rw [refused] at h
    cases hd : decode k' blob' with
    | ok _ =>
      rw [hd] at h
      exact ih h
    | error e =>
      rw [hd] at h
      cases h
      exact ⟨e,hd⟩

variable {F : Format σ ε Blob} (hF : F.Lawful R decode)
include hF

theorem replaceAll_ok (href : refused decode cls = none) (l : Logged σ Blob) :
    F.replaceAll cls l = .ok () ⟨overlay (accepted decode cls) l.store,
      l.log ++ (history l.store (accepted decode cls)).map fun e => (e.1, F.save e.1 e.2)⟩ := by
  induction cls generalizing l with
  | nil => simp [Format.replaceAll, accepted, overlay, history]
  | cons call _ ih =>
    obtain ⟨k,blob⟩ := call
    rw [refused] at href
    cases hdec : decode k blob with
    | error _ =>
      rw [hdec] at href
      cases href
    | ok s =>
      rw [hdec] at href
      have hl := (hF.load_ok k blob (l.store k) s).mpr hdec
      rw [Format.replaceAll, bind_of_ok (F.replace_of_ok hl), ih href, accepted, hdec]
      simp [overlay, history]

theorem replaceAll_error (href : refused decode cls = some (k, blob)) (l : Logged σ Blob) :
    ∃ e s, F.load k blob (overlay (accepted decode cls) l.store k) = .error e s ∧
      F.replaceAll cls l = .error e ⟨Function.update (overlay (accepted decode cls) l.store) k s,
          l.log ++ (history l.store (accepted decode cls)).map fun e => (e.1, F.save e.1 e.2)⟩ := by
  induction cls generalizing l with
  | nil => cases href
  | cons call _ ih =>
    obtain ⟨k',blob'⟩ := call
    rw [refused] at href
    cases hdec : decode k' blob' with
    | error e =>
      rw [hdec] at href
      cases href
      cases hl : F.load k blob (l.store k) with
      | ok _ s =>
        have hok := (hF.load_ok k blob (l.store k) s).mp hl
        rw [hdec] at hok
        cases hok
      | error e s =>
        refine ⟨e,s,?_,?_⟩
        · rw [accepted, hdec]
          exact hl
        · rw [Format.replaceAll, bind_of_error (F.replace_of_error hl), accepted, hdec]
          simp [overlay, history]
    | ok s =>
      rw [hdec] at href
      have hl := (hF.load_ok k' blob' (l.store k') s).mpr hdec
      obtain ⟨e,s',hla,hrun⟩ := ih href
        ⟨Function.update l.store k' s,l.log ++ [(k',F.save k' (l.store k'))]⟩
      rw [accepted, hdec]
      refine ⟨e,s',hla,?_⟩
      rw [Format.replaceAll, bind_of_ok (F.replace_of_ok hl), hrun]
      simp [overlay, history]

theorem replay_saved (es : List (Σ k, σ k)) (store : ∀ k, σ k) :
    ∃ store', F.replay (es.map fun e => (e.1, F.save e.1 e.2)) store = .ok () store' ∧
      ∀ k, R k (store' k) ((valuesOf k es).getLast?.getD (store k)) := by
  induction es generalizing store with
  | nil => exact ⟨store,rfl,fun k => (hF.equivalence k).refl _⟩
  | cons en rest ih =>
    obtain ⟨k',s⟩ := en
    obtain ⟨s',hdec,hs⟩ := hF.restores k' s
    have hl := (hF.load_ok k' (F.save k' s) (store k') s').mpr hdec
    obtain ⟨store',hrun,hla⟩ := ih (Function.update store k' s')
    refine ⟨store',?_,?_⟩
    · rw [List.map_cons, Format.replay, bind_of_ok (F.set_of_ok hl), hrun]
    · intro k
      refine (hF.equivalence k).trans (hla k) ?_
      by_cases h : k' = k
      · subst h
        rw [valuesOf_cons_self, Function.update_self, List.getLast?_cons, Option.getD_some]
        cases (valuesOf k' rest).getLast? with
        | none => exact hs
        | some last => exact (hF.equivalence k').refl last
      · rw [valuesOf_cons_ne h, Function.update_of_ne (Ne.symm h)]
        exact (hF.equivalence k).refl _

omit hF in
def Script.Stops (decode : (k : κ) → Blob → Except ε (σ k)) (script : Script κ ε Blob) : Prop :=
  refused decode script.calls ≠ none ∨ script.fault ≠ none

/-- The object is the same after the log was played: its state before the
last replacement was the old one, or it was not replaced, and if its own form
was refused, then the reading changed nothing. -/
structure Format.Restorable (F : Format σ ε Blob) (R : ∀ k, σ k → σ k → Prop)
    (decode : (k : κ) → Blob → Except ε (σ k)) (store : ∀ k, σ k) (calls : List (κ × Blob))
    (k : κ) : Prop where
  first : valuesOf k (accepted decode calls) = [] → ∀ blob, refused decode calls = some (k, blob) →
    R k (left (F.load k blob (store k))) (store k)
  again : ∀ s, (valuesOf k (accepted decode calls)).dropLast.getLast? = some s → R k s (store k)

variable {script : Script κ ε Blob}

theorem play_error (h : script.Stops decode) (store : ∀ k, σ k) :
    ∃ e last, script.play F ⟨store,[]⟩ = .error e ⟨last,
        (history store (accepted decode script.calls)).map fun e => (e.1, F.save e.1 e.2)⟩ ∧
      ∀ k, valuesOf k (accepted decode script.calls) = [] →
        (∀ blob, refused decode script.calls = some (k, blob) →
          last k = left (F.load k blob (store k))) ∧
        ((∀ blob, refused decode script.calls ≠ some (k, blob)) → last k = store k) := by
  have hke : ∀ k, valuesOf k (accepted decode script.calls) = [] →
      overlay (accepted decode script.calls) store k = store k := by
    intro k hk
    rw [overlay_apply, hk]
    rfl
  cases href : refused decode script.calls with
  | none =>
    cases hflt : script.fault with
    | none => exact absurd h (by simp [Script.Stops, href, hflt])
    | some e =>
      refine ⟨e,overlay (accepted decode script.calls) store,?_,?_⟩
      · rw [Script.play, bind_of_ok (replaceAll_ok hF href ⟨store,[]⟩), hflt]
        rfl
      · intro k hk
        refine ⟨fun blob hb => ?_,fun _ => hke k hk⟩
        cases hb
  | some call =>
    obtain ⟨k',blob'⟩ := call
    obtain ⟨e,_,hl,hrun⟩ := replaceAll_error hF href ⟨store,[]⟩
    refine ⟨e,_,bind_of_error hrun,?_⟩
    intro k hk
    constructor
    · intro blob hb
      cases hb
      rw [hke k' hk] at hl
      rw [Function.update_self, hl, left_error]
    · intro hoth
      have hne : k ≠ k' := fun h => hoth blob' (by rw [h])
      rw [Function.update_of_ne hne]
      exact hke k hk

theorem undoing_ok (h : ¬ script.Stops decode) (store : ∀ k, σ k) :
    F.undoing (script.play F) store = .ok () (overlay (accepted decode script.calls) store) := by
  rw [Script.Stops, not_or, not_not, not_not] at h
  rw [Format.undoing, Script.play, bind_of_ok (replaceAll_ok hF h.1 ⟨store,[]⟩), h.2]
  rfl

theorem accepted_saved (states : ∀ k, σ k) (keys : List κ) :
    refused decode (keys.map fun k => (k, F.save k (states k))) = none ∧
      ∀ k, (∀ s ∈ valuesOf k (accepted decode (keys.map fun k => (k, F.save k (states k)))),
          R k s (states k)) ∧ (k ∈ keys → valuesOf k (accepted decode
          (keys.map fun k => (k, F.save k (states k)))) ≠ []) := by
  induction keys with
  | nil =>
    refine ⟨rfl,fun k => ⟨fun s hs => ?_,fun hk => ?_⟩⟩
    · exact absurd hs List.not_mem_nil
    · exact absurd hk List.not_mem_nil
  | cons k' _ ih =>
    obtain ⟨href,hv⟩ := ih
    obtain ⟨_,hdec,hsa⟩ := hF.restores k' (states k')
    rw [List.map_cons, refused, accepted, hdec]
    refine ⟨href,fun k => ?_⟩
    obtain ⟨hst,hnm⟩ := hv k
    by_cases h : k' = k
    · subst h
      dsimp only
      rw [valuesOf_cons_self]
      refine ⟨fun s hs => ?_,fun _ => List.cons_ne_nil _ _⟩
      rcases List.mem_cons.mp hs with rfl | hs
      · exact hsa
      · exact hst s hs
    · dsimp only
      rw [valuesOf_cons_ne h]
      exact ⟨hst,fun hk => hnm ((List.mem_cons.mp hk).resolve_left (Ne.symm h))⟩

theorem undoing_saved (states : ∀ k, σ k) (keys : List κ) (store : ∀ k, σ k) :
    ∃ store', F.undoing ((⟨keys.map fun k => (k, F.save k (states k)), none⟩ :
        Script κ ε Blob).play F) store = .ok () store' ∧ ∀ k ∈ keys, R k (store' k) (states k) := by
  obtain ⟨href,hv⟩ := accepted_saved hF states keys
  refine ⟨_,undoing_ok hF (fun h => h.elim (fun h => h href) fun h => h rfl) store,?_⟩
  intro k hk
  obtain ⟨hs,hnm⟩ := hv k
  rw [overlay_apply]
  cases hl : (valuesOf k (accepted decode
      (keys.map fun k => (k, F.save k (states k))))).getLast? with
  | none => exact absurd (List.getLast?_eq_none_iff.mp hl) (hnm hk)
  | some s => exact hs s (List.mem_of_getLast? hl)

theorem undoing_error (h : script.Stops decode) (store : ∀ k, σ k) :
    ∃ e store', F.undoing (script.play F) store = .error e store' ∧
      ∀ k, R k (store' k) (store k) ↔ F.Restorable R decode store script.calls k := by
  obtain ⟨e,last,hrun,hl⟩ := play_error hF h store
  obtain ⟨store',hreplay,hst⟩ := replay_saved hF (history store (accepted decode script.calls)) last
  refine ⟨e,store',?_,?_⟩
  · rw [Format.undoing, hrun]
    dsimp only
    rw [hreplay]
  · intro k
    have hR := hF.equivalence k
    have hsta := hst k
    rw [valuesOf_history] at hsta
    have hc : ∀ {s}, R k (store' k) s → (R k (store' k) (store k) ↔ R k s (store k)) :=
      fun hs => ⟨fun h => hR.trans (hR.symm hs) h,fun h => hR.trans hs h⟩
    rw [hc hsta]
    rcases List.eq_nil_or_concat' (valuesOf k (accepted decode script.calls)) with
      hnil | ⟨os,s,hv⟩
    · obtain ⟨hre,hoth⟩ := hl k hnil
      rw [hnil]
      constructor
      · intro hsa
        refine ⟨fun _ blob hb => ?_,fun s hs => ?_⟩
        · rw [← hre blob hb]
          exact hsa
        · rw [hnil] at hs
          cases hs
      · intro hr
        by_cases hb : ∃ blob, refused decode script.calls = some (k, blob)
        · obtain ⟨blob,hb⟩ := hb
          have hsa := hr.first hnil blob hb
          rw [← hre blob hb] at hsa
          exact hsa
        · have hsa := hoth (not_exists.mp hb)
          show R k (last k) (store k)
          rw [hsa]
          exact hR.refl _
    · rw [hv, ← List.cons_append, List.dropLast_concat, List.getLast?_cons, Option.getD_some]
      cases hp : os.getLast? with
      | none =>
        refine iff_of_true (hR.refl _) ⟨fun hnil => ?_,fun s hs => ?_⟩
        · rw [hv] at hnil
          exact absurd hnil (by simp)
        · rw [hv, List.dropLast_concat, hp] at hs
          cases hs
      | some _ =>
        rw [Option.getD_some]
        constructor
        · intro hsa
          refine ⟨fun hnil => ?_,fun s hs => ?_⟩
          · rw [hv] at hnil
            exact absurd hnil (by simp)
          · rw [hv, List.dropLast_concat, hp] at hs
            cases hs
            exact hsa
        · intro hr
          apply hr.again
          rw [hv, List.dropLast_concat, hp]

end Scripts

end Orbis.UndoLog
