import Mathlib.Data.Finmap
import Mathlib.Tactic

/-!
# Maps of vectors that grow and shrink at the back

A table maps a key to a vector. Reading an absent key creates nothing here;
`pushBack` appends under a key, `popBack` removes the last element and drops
a vector that became empty. In a table without empty vectors the second
undoes the first, and overwriting an element commutes with appending.
-/

set_option autoImplicit false

namespace Orbis.VectorTable

abbrev Table (κ ν : Type) := Finmap (fun _ : κ => List ν)

variable {κ ν : Type} [DecidableEq κ] {t : Table κ ν} {places : List (κ × ℕ)} {k : κ} {f : ν → ν}

def bucket (t : Table κ ν) (k : κ) : List ν := (t.lookup k).getD []

def pushBack (t : Table κ ν) (k : κ) (v : ν) : Table κ ν := t.insert k (bucket t k ++ [v])

def dropBack (t : Table κ ν) (k : κ) : Table κ ν :=
  if (bucket t k).dropLast = [] then t.erase k else t.insert k (bucket t k).dropLast

def modifyAt (t : Table κ ν) (k : κ) (i : ℕ) (f : ν → ν) : Table κ ν :=
  t.insert k ((bucket t k).modify i f)

def Tight (t : Table κ ν) : Prop := ∀ k, t.lookup k ≠ some []

theorem lookup_of_bucket (h : bucket t k ≠ []) : t.lookup k = some (bucket t k) := by
  unfold bucket at *
  cases hk : t.lookup k with
  | none => simp [hk] at h
  | some _ => rfl

theorem bucket_of_lookup {vs : List ν} (h : t.lookup k = some vs) : bucket t k = vs := by
  simp [bucket, h]

theorem lookup_eq_none (ht : Tight t) (h : bucket t k = []) : t.lookup k = none := by
  cases hk : t.lookup k with
  | none => rfl
  | some _ =>
    rw [bucket_of_lookup hk] at h
    exact absurd (h ▸ hk) (ht k)

theorem ext_bucket {t u : Table κ ν} (ht : Tight t) (hu : Tight u)
    (h : ∀ k, bucket t k = bucket u k) : t = u := by
  apply Finmap.ext_lookup
  intro k
  by_cases hk : bucket t k = []
  · rw [lookup_eq_none ht hk, lookup_eq_none hu (h k ▸ hk)]
  · rw [lookup_of_bucket hk, lookup_of_bucket (h k ▸ hk), h k]

@[simp] theorem bucket_empty (k : κ) : bucket (∅ : Table κ ν) k = [] := by
  simp [bucket]

theorem tight_empty : Tight (∅ : Table κ ν) := by
  intro k
  simp

@[simp] theorem bucket_pushBack (t : Table κ ν) (k : κ) (v : ν) :
    bucket (pushBack t k v) k = bucket t k ++ [v] := by
  simp [bucket, pushBack]

theorem bucket_pushBack_of_ne {k j : κ} {v : ν} (h : j ≠ k) :
    bucket (pushBack t k v) j = bucket t j := by
  simp [bucket, pushBack, Finmap.lookup_insert_of_ne _ h]

theorem tight_pushBack (ht : Tight t) (k : κ) (v : ν) : Tight (pushBack t k v) := by
  intro j
  by_cases h : j = k
  · subst h
    simp [pushBack]
  · rw [pushBack, Finmap.lookup_insert_of_ne _ h]
    exact ht j

@[simp] theorem bucket_modifyAt {i : ℕ} :
    bucket (modifyAt t k i f) k = (bucket t k).modify i f := by
  simp [bucket, modifyAt]

theorem bucket_modifyAt_of_ne (t : Table κ ν) {k j : κ} (i : ℕ) (f : ν → ν) (h : j ≠ k) :
    bucket (modifyAt t k i f) j = bucket t j := by
  simp [bucket, modifyAt, Finmap.lookup_insert_of_ne _ h]

theorem tight_modifyAt (ht : Tight t) {i : ℕ} (f : ν → ν) (hi : i < (bucket t k).length) :
    Tight (modifyAt t k i f) := by
  intro j
  by_cases h : j = k
  · subst h
    have hlen : ((bucket t j).modify i f).length ≠ 0 := by
      rw [List.length_modify]
      omega
    simp only [modifyAt, Finmap.lookup_insert, ne_eq, Option.some.injEq]
    exact fun hnil => hlen (by rw [hnil]; rfl)
  · rw [modifyAt, Finmap.lookup_insert_of_ne _ h]
    exact ht j

theorem dropBack_pushBack (ht : Tight t) (k : κ) (v : ν) : dropBack (pushBack t k v) k = t := by
  apply Finmap.ext_lookup
  intro j
  unfold dropBack
  rw [bucket_pushBack, List.dropLast_concat]
  by_cases hk : bucket t k = []
  · rw [if_pos hk]
    by_cases hj : j = k
    · subst hj
      rw [Finmap.lookup_erase, lookup_eq_none ht hk]
    · rw [Finmap.lookup_erase_ne hj, pushBack, Finmap.lookup_insert_of_ne _ hj]
  · rw [if_neg hk]
    by_cases hj : j = k
    · subst hj
      rw [Finmap.lookup_insert, lookup_of_bucket hk]
    · rw [Finmap.lookup_insert_of_ne _ hj, pushBack, Finmap.lookup_insert_of_ne _ hj]

def modifyAll (t : Table κ ν) (places : List (κ × ℕ)) (f : ν → ν) : Table κ ν :=
  places.foldl (fun u place => modifyAt u place.1 place.2 f) t

theorem getElem?_modifyAt {k j : κ} {i n : ℕ} :
    (bucket (modifyAt t k i f) j)[n]? =
      if (j, n) = (k, i) then ((bucket t j)[n]?).map f else (bucket t j)[n]? := by
  by_cases hj : j = k
  · subst hj
    rw [bucket_modifyAt, List.getElem?_modify]
    by_cases hn : i = n
    · simp [hn]
    · simp [hn, Ne.symm hn]
  · rw [bucket_modifyAt_of_ne t i f hj]
    simp [hj]

theorem getElem?_modifyAll (t : Table κ ν) (f : ν → ν) (hpls : places.Nodup) (j : κ) (n : ℕ) :
    (bucket (modifyAll t places f) j)[n]? =
      if (j, n) ∈ places then ((bucket t j)[n]?).map f else (bucket t j)[n]? := by
  induction places generalizing t with
  | nil => simp [modifyAll]
  | cons place rest ih =>
    obtain ⟨k,i⟩ := place
    obtain ⟨hnot,hr⟩ := List.nodup_cons.mp hpls
    have hs := ih (modifyAt t k i f) hr
    rw [modifyAll, List.foldl_cons, ← modifyAll, hs, getElem?_modifyAt]
    by_cases hp : (j, n) = (k, i)
    · have hmem : (j, n) ∉ rest := hp ▸ hnot
      simp [hp, hp ▸ hmem]
    · by_cases hmem : (j, n) ∈ rest <;> simp [hp, hmem]

theorem length_bucket_modifyAll (t : Table κ ν) (places : List (κ × ℕ)) (f : ν → ν) (j : κ) :
    (bucket (modifyAll t places f) j).length = (bucket t j).length := by
  induction places generalizing t with
  | nil => rfl
  | cons place _ ih =>
    rw [modifyAll, List.foldl_cons, ← modifyAll, ih]
    by_cases hj : j = place.1
    · rw [hj, bucket_modifyAt, List.length_modify]
    · rw [bucket_modifyAt_of_ne t _ f hj]

theorem map_bucket_modifyAll {μ : Type} {g : ν → μ} (hg : ∀ v, g (f v) = g v) (j : κ) :
    (bucket (modifyAll t places f) j).map g = (bucket t j).map g := by
  induction places generalizing t with
  | nil => rfl
  | cons _ _ ih =>
    rw [modifyAll, List.foldl_cons, ← modifyAll, ih]
    refine List.ext_getElem? fun n => ?_
    rw [List.getElem?_map, List.getElem?_map, getElem?_modifyAt]
    split
    · rw [Option.map_map, show g ∘ f = g from funext hg]
    · rfl

def Inside (t : Table κ ν) (places : List (κ × ℕ)) : Prop :=
  ∀ place ∈ places, place.2 < (bucket t place.1).length

theorem tight_modifyAll (ht : Tight t) (f : ν → ν) (hin : Inside t places) :
    Tight (modifyAll t places f) := by
  induction places generalizing t with
  | nil => exact ht
  | cons place _ ih =>
    have hh : place.2 < (bucket t place.1).length := hin place (by simp)
    apply ih (tight_modifyAt ht f hh)
    intro p hp
    have hlen := length_bucket_modifyAll t [place] f p.1
    simp only [modifyAll, List.foldl_cons, List.foldl_nil] at hlen
    rw [hlen]
    exact hin p (List.mem_cons_of_mem _ hp)

theorem modifyAll_modifyAll (ht : Tight t) {f g : ν → ν} (hpls : places.Nodup)
    (hin : Inside t places)
    (hfg : ∀ place ∈ places, ∀ v, (bucket t place.1)[place.2]? = some v → g (f v) = v) :
    modifyAll (modifyAll t places f) places g = t := by
  have hin' : Inside (modifyAll t places f) places := by
    intro place hpl
    rw [length_bucket_modifyAll]
    exact hin place hpl
  apply ext_bucket (tight_modifyAll (tight_modifyAll ht f hin) g hin') ht
  intro k
  apply List.ext_getElem?
  intro n
  rw [getElem?_modifyAll _ g hpls, getElem?_modifyAll _ f hpls]
  by_cases hmem : (k, n) ∈ places
  · simp only [hmem, if_true]
    cases hv : (bucket t k)[n]? with
    | none => rfl
    | some v => simpa using hfg (k, n) hmem v hv
  · simp only [hmem, if_false]

end Orbis.VectorTable
