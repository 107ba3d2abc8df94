import Mathlib.Data.Finmap
import Orbis.ByteCodec

/-!
# The vector that is kept in two files

The blocks of the chain are kept in a file of items and a file of their sizes,
with a bounded pool of recently used items in memory. Items that are popped
stay in the files as a stale tail until they are written over. Every sequence
of calls has the outcomes of a plain list, over any number of restarts. This
does not hold when an item takes more bytes than a 32-bit size can say, or when
the files are opened again through the object that has them open.
-/

set_option autoImplicit false

namespace Orbis.SwappedFiles

open ByteCodec

section Streams

inductive Failure where
  | thrown
  | unwritten
  | undefined
  deriving DecidableEq, Repr

def maxOffset : ℕ := 2 ^ 63 - 1

structure FileStream where
  content : Option Bytes
  isOpen : Bool
  failed : Bool

variable (f : FileStream)

def FileStream.bytes : Bytes := f.content.getD []

def FileStream.fail : FileStream := { f with failed := true }

def FileStream.openExisting : FileStream :=
  if f.isOpen then f.fail
  else if f.content.isSome then { f with isOpen := true, failed := false }
  else f.fail

def FileStream.openNew : FileStream :=
  if f.isOpen then f.fail else ⟨some [], true, false⟩

def FileStream.close : FileStream :=
  if f.isOpen then { f with isOpen := false } else f.fail

def FileStream.put (position : ℕ) (bytes : Bytes) : FileStream :=
  if f.failed then f
  else if maxOffset < position + bytes.length then f.fail
  else { f with content := some (overwrite f.bytes position bytes) }

end Streams

section Pool

variable {T : Type}

structure Pool (T : Type) where
  poolSize : ℕ
  items : Finmap (fun _ : ℕ => T)
  cache : List ℕ

def Pool.touch (p : Pool T) (index : ℕ) : Pool T :=
  if p.cache.getLast? = some index then p
  else { p with cache := p.cache.erase index ++ [index] }

def Pool.enter (p : Pool T) (index : ℕ) (item : T) : Pool T :=
  { p with items := p.items.insert index item, cache := p.cache ++ [index] }

/-- `prepare`, with the item that the callers put into the new entry. -/
def Pool.prepare (p : Pool T) (index : ℕ) (item : T) : Except Failure (Pool T) :=
  if p.items.keys.card = p.poolSize then
    match p.cache with
    | [] => .error .undefined
    | oldest :: cache => .ok (Pool.enter { p with items := p.items.erase oldest, cache } index item)
  else .ok (p.enter index item)

def Pool.remove (p : Pool T) (index : ℕ) : Pool T :=
  match p.items.lookup index with
  | none => p
  | some _ => { p with items := p.items.erase index, cache := p.cache.erase index }

end Pool

section Vector

variable {T : Type}

structure Serializer (T : Type) where
  write : T → Bytes
  read : Reader T
  exact : ∀ item rest, read.run (write item ++ rest) = some (item, rest)

structure Swapped (T : Type) extends Pool T where
  itemsFile : FileStream
  indexesFile : FileStream
  offsets : List ℕ
  itemsFileSize : ℕ

def Swapped.fresh (itemsFile indexesFile : Option Bytes) : Swapped T where
  poolSize := 0
  items := ∅
  cache := []
  itemsFile := ⟨itemsFile, false, false⟩
  indexesFile := ⟨indexesFile, false, false⟩
  offsets := []
  itemsFileSize := 0

def offsetsFrom (itemsFileSize : ℕ) : List ℕ → List ℕ
  | [] => []
  | itemSize :: sizes => itemsFileSize :: offsetsFrom (itemsFileSize + itemSize) sizes

def Swapped.emptied (v : Swapped T) (poolSize : ℕ) : Swapped T :=
  { v with poolSize := poolSize, items := ∅, cache := [] }

def readSizes : Reader (List ℕ) := readWord 8 >>= readMany (readWord 4)

def Swapped.load (v : Swapped T) (poolSize : ℕ) : Bool × Swapped T :=
  match readSizes.run v.indexesFile.bytes with
  | none => (false, { v with indexesFile := v.indexesFile.fail })
  | some (sizes, _) =>
    (true, { v.emptied poolSize with offsets := offsetsFrom 0 sizes, itemsFileSize := sizes.sum })

def Swapped.create (v : Swapped T) (poolSize : ℕ) : Bool × Swapped T :=
  let itemsFile := v.itemsFile.openNew.close.openExisting
  let indexesFile := v.indexesFile.openNew.put 0 (writeWord 8 0)
  if indexesFile.failed then (false, { v with itemsFile, indexesFile })
  else
    (true, { v.emptied poolSize with
      itemsFile
      indexesFile := indexesFile.close.openExisting
      offsets := []
      itemsFileSize := 0 })

def Swapped.open (v : Swapped T) (poolSize : ℕ) : Bool × Swapped T :=
  if poolSize = 0 then (false, v)
  else
    let itemsFile := v.itemsFile.openExisting
    let indexesFile := v.indexesFile.openExisting
    if !itemsFile.failed && !indexesFile.failed then
      Swapped.load { v with itemsFile, indexesFile } poolSize
    else Swapped.create { v with itemsFile, indexesFile } poolSize

variable (S : Serializer T)

def operatorAt (index : ℕ) (v : Swapped T) : Except Failure T × Swapped T :=
  match v.items.lookup index with
  | some item => (.ok item, { v with toPool := v.toPool.touch index })
  | none =>
    match v.offsets[index]? with
    | none => (.error .thrown, v)
    | some offset =>
      if v.itemsFile.failed then (.error .thrown, v)
      else
        match S.read.run (v.itemsFile.bytes.drop offset) with
        | none => (.error .thrown, { v with itemsFile := v.itemsFile.fail })
        | some (tempItem, _) =>
          match v.toPool.prepare index tempItem with
          | .error failure => (.error failure, v)
          | .ok pool => (.ok tempItem, { v with toPool := pool })

def front (v : Swapped T) : Except Failure T × Swapped T := operatorAt S 0 v

def lastIndex (v : Swapped T) : ℕ := (v.offsets.length + (2 ^ 64 - 1)) % 2 ^ 64

def back (v : Swapped T) : Except Failure T × Swapped T := operatorAt S (lastIndex v) v

def clear (v : Swapped T) : Except Failure Unit × Swapped T :=
  if v.indexesFile.failed then (.error .thrown, v)
  else
    let indexesFile := v.indexesFile.put 0 (writeWord 8 0)
    if indexesFile.failed then (.error .unwritten, { v with indexesFile })
    else (.ok (), { v.emptied v.poolSize with indexesFile, offsets := [], itemsFileSize := 0 })

def popBack (v : Swapped T) : Except Failure Unit × Swapped T :=
  if v.indexesFile.failed then (.error .thrown, v)
  else
    let indexesFile := v.indexesFile.put 0 (writeWord 8 (lastIndex v))
    if indexesFile.failed then (.error .unwritten, { v with indexesFile })
    else
      match v.offsets.getLast? with
      | none => (.error .undefined, { v with indexesFile })
      | some offset =>
        (.ok (), { v with
          toPool := v.toPool.remove (v.offsets.length - 1)
          indexesFile
          offsets := v.offsets.dropLast
          itemsFileSize := offset })

def pushBack (item : T) (v : Swapped T) : Except Failure Unit × Swapped T :=
  if v.itemsFile.failed then (.error .thrown, v)
  else
    let itemsFile := v.itemsFile.put v.itemsFileSize (S.write item)
    if itemsFile.failed then (.error .unwritten, { v with itemsFile })
    else if v.indexesFile.failed then (.error .thrown, { v with itemsFile })
    else
      -- the four bytes keep the low half of a larger size
      let itemsFileSize := v.itemsFileSize + (S.write item).length
      let sized := v.indexesFile.put (8 + 4 * v.offsets.length)
        (writeWord 4 (itemsFileSize - v.itemsFileSize))
      let indexesFile := sized.put 0 (writeWord 8 (v.offsets.length + 1))
      if indexesFile.failed then (.error .unwritten, { v with itemsFile, indexesFile })
      else
        let offsets := v.offsets ++ [v.itemsFileSize]
        match v.toPool.prepare (offsets.length - 1) item with
        | .error failure =>
          (.error failure, { v with itemsFile, indexesFile, offsets, itemsFileSize })
        | .ok pool =>
          (.ok (), { v with toPool := pool, itemsFile, indexesFile, offsets, itemsFileSize })

end Vector

section Sessions

variable {T : Type}

inductive Action (T : Type) where
  | pushBack (item : T)
  | popBack
  | clear
  | operatorAt (index : ℕ)
  | front
  | back
  | size
  /-- The object is destroyed, which closes the files, and a new one opens them. -/
  | restart (poolSize : ℕ)
  /-- `close`, which only prints the counts of the cache, and `open`. -/
  | reopen (poolSize : ℕ)

inductive Answer (T : Type) where
  | done
  | item (item : T)
  | size (count : ℕ)
  | opened (success : Bool)
  deriving DecidableEq

def perform (S : Serializer T) : Action T → Swapped T → Except Failure (Answer T) × Swapped T
  | .pushBack item, v => Prod.map (Except.map fun _ => .done) id (pushBack S item v)
  | .popBack, v => Prod.map (Except.map fun _ => .done) id (popBack v)
  | .clear, v => Prod.map (Except.map fun _ => .done) id (clear v)
  | .operatorAt index, v => Prod.map (Except.map .item) id (operatorAt S index v)
  | .front, v => Prod.map (Except.map .item) id (front S v)
  | .back, v => Prod.map (Except.map .item) id (back S v)
  | .size, v => (.ok (.size v.offsets.length), v)
  | .restart poolSize, v => Prod.map (fun success => .ok (.opened success)) id
      (Swapped.open (.fresh v.itemsFile.content v.indexesFile.content) poolSize)
  | .reopen poolSize, v => Prod.map (fun success => .ok (.opened success)) id
      (Swapped.open v poolSize)

def itemOf : Option T → Except Failure (Answer T)
  | none => .error .thrown
  | some item => .ok (.item item)

def plain : Action T → List T → Except Failure (Answer T) × List T
  | .pushBack item, l => (.ok .done, l ++ [item])
  | .popBack, [] => (.error .undefined, [])
  | .popBack, l => (.ok .done, l.dropLast)
  | .clear, _ => (.ok .done, [])
  | .operatorAt index, l => (itemOf l[index]?, l)
  | .front, l => (itemOf l.head?, l)
  | .back, l => (itemOf l.getLast?, l)
  | .size, l => (.ok (.size l.length), l)
  | .restart _, l => (.ok (.opened true), l)
  | .reopen _, l => (.ok (.opened true), l)

def outcomes {σ : Type} (step : Action T → σ → Except Failure (Answer T) × σ) :
    List (Action T) → σ → List (Except Failure (Answer T))
  | [], _ => []
  | action :: actions, state =>
    match step action state with
    | (.error .undefined, _) => [.error .undefined]
    | (outcome, next) => outcome :: outcomes step actions next

section Outcomes

variable {σ : Type} {step : Action T → σ → Except Failure (Answer T) × σ} {action : Action T}
  {actions : List (Action T)} {state : σ}

theorem outcomes_undefined (h : (step action state).1 = .error .undefined) :
    outcomes step (action :: actions) state = [.error .undefined] := by
  rw [outcomes]
  generalize step action state = r at h
  obtain ⟨_,_⟩ := r
  cases h
  rfl

theorem outcomes_ok {next : σ} {ans : Answer T} (h : step action state = (.ok ans, next)) :
    outcomes step (action :: actions) state = .ok ans :: outcomes step actions next := by
  rw [outcomes, h]

theorem outcomes_defined (h : (step action state).1 ≠ .error .undefined) :
    outcomes step (action :: actions) state =
      (step action state).1 :: outcomes step actions (step action state).2 := by
  rw [outcomes]
  generalize step action state = r at h
  obtain ⟨_,_⟩ := r
  split
  · rename_i heq
    cases heq
    exact absurd rfl h
  · rename_i heq
    cases heq
    rfl

end Outcomes

def Proper (S : Serializer T) : List (Action T) → List T → Prop
  | [], _ => True
  | .restart poolSize :: actions, l =>
    (0 < poolSize ∧ ∀ item ∈ l, (S.write item).length < 2 ^ 32) ∧ Proper S actions l
  | .reopen _ :: _, _ => False
  | action :: actions, l => Proper S actions (plain action l).2

end Sessions

section Cache

variable {T : Type}

structure Pool.Holds (p : Pool T) (l : List T) : Prop where
  room : 0 < p.poolSize
  filled : p.items.keys.card ≤ p.poolSize
  once : p.cache.Nodup
  named : ∀ index, index ∈ p.cache ↔ index ∈ p.items
  value : ∀ index item, p.items.lookup index = some item → l[index]? = some item

variable {p : Pool T} {l : List T} {idx : ℕ} {item : T} {poolSize : ℕ}

theorem Pool.Holds.empty (h : 0 < poolSize) : Pool.Holds ⟨poolSize, ∅, []⟩ l where
  room := h
  filled := by
    rw [Finmap.keys_empty]
    exact Nat.zero_le _
  once := List.nodup_nil
  named := fun idx => iff_of_false List.not_mem_nil Finmap.notMem_empty
  value := by
    intro idx item hi
    cases hi

theorem Pool.Holds.card (h : p.Holds l) : p.items.keys.card = p.cache.length := by
  have hk : p.items.keys = p.cache.toFinset := by
    ext idx
    rw [Finmap.mem_keys, List.mem_toFinset, h.named]
  rw [hk, List.toFinset_card_of_nodup h.once]

theorem Pool.Holds.touch (h : p.Holds l) (hix : idx ∈ p.items) : (p.touch idx).Holds l := by
  rw [Pool.touch]
  split_ifs with hl
  · exact h
  · refine ⟨h.room,h.filled,?_,?_,h.value⟩
    · rw [List.nodup_append]
      refine ⟨h.once.erase idx,List.nodup_singleton idx,?_⟩
      intro a ha b hb
      rw [List.mem_singleton.mp hb]
      exact (h.once.mem_erase_iff.mp ha).1
    · intro o
      rw [List.mem_append, List.mem_singleton, h.once.mem_erase_iff, h.named]
      constructor
      · rintro (⟨-,hoth⟩ | rfl)
        · exact hoth
        · exact hix
      · intro hoth
        by_cases heq : o = idx
        · exact .inr heq
        · exact .inl ⟨heq,hoth⟩

theorem Pool.Holds.enter (h : p.Holds l) (hr : p.cache.length < p.poolSize) (habs : idx ∉ p.items)
    (hval : l[idx]? = some item) : (p.enter idx item).Holds l := by
  have hnot : idx ∉ p.cache := fun hmem => habs ((h.named idx).mp hmem)
  have ho : (p.cache ++ [idx]).Nodup := by
    rw [List.nodup_append]
    refine ⟨h.once,List.nodup_singleton idx,?_⟩
    intro a ha b hb heq
    rw [heq, List.mem_singleton.mp hb] at ha
    exact hnot ha
  have hnm : ∀ o, o ∈ p.cache ++ [idx] ↔ o ∈ p.items.insert idx item := by
    intro o
    rw [List.mem_append, List.mem_singleton, Finmap.mem_insert, h.named, or_comm]
  refine ⟨h.room,?_,ho,hnm,?_⟩
  · have hk : (p.items.insert idx item).keys = (p.cache ++ [idx]).toFinset := by
      ext o
      rw [Finmap.mem_keys, List.mem_toFinset, hnm]
    show (p.items.insert idx item).keys.card ≤ p.poolSize
    rw [hk, List.toFinset_card_of_nodup ho, List.length_append, List.length_singleton]
    omega
  · intro o x hx
    by_cases heq : o = idx
    · subst heq
      rw [show (p.enter o item).items = p.items.insert o item from rfl, Finmap.lookup_insert] at hx
      rw [← hx]
      exact hval
    · apply h.value
      rw [← hx]
      exact (Finmap.lookup_insert_of_ne p.items heq).symm

theorem Pool.Holds.remove (h : p.Holds l) (ix : ℕ) : (p.remove ix).Holds l := by
  rw [Pool.remove]
  split
  · exact h
  · refine ⟨h.room,?_,h.once.erase ix,?_,?_⟩
    · show (p.items.erase ix).keys.card ≤ p.poolSize
      rw [Finmap.keys_erase]
      exact (Finset.card_le_card (Finset.erase_subset _ _)).trans h.filled
    · intro o
      show o ∈ p.cache.erase ix ↔ o ∈ p.items.erase ix
      rw [h.once.mem_erase_iff, Finmap.mem_erase, h.named]
    · intro o x hx
      apply h.value
      by_cases heq : o = ix
      · rw [heq] at hx
        cases hx.symm.trans (Finmap.lookup_erase ix p.items)
      · rw [← hx]
        exact (Finmap.lookup_erase_ne heq).symm

theorem Pool.Holds.prepare (h : p.Holds l) (habs : idx ∉ p.items)
    (hval : l[idx]? = some item) : ∃ q, p.prepare idx item = .ok q ∧ q.Holds l := by
  rw [Pool.prepare]
  split_ifs with hf
  · have hro := h.room
    rw [h.card] at hf
    cases hc : p.cache with
    | nil =>
      rw [hc, List.length_nil] at hf
      omega
    | cons oldest cache =>
      have hold : oldest ∈ p.items := (h.named oldest).mp (hc ▸ List.mem_cons_self)
      obtain ⟨_,hx⟩ := Finmap.mem_iff.mp hold
      have hr : p.remove oldest = { p with items := p.items.erase oldest, cache := cache } := by
        rw [Pool.remove, hx, hc, List.erase_cons_head]
      have hhol := h.remove oldest
      rw [hr] at hhol
      refine ⟨_,rfl,hhol.enter ?_ ?_ hval⟩
      · show cache.length < p.poolSize
        rw [hc, List.length_cons] at hf
        omega
      · exact fun hmem => habs (Finmap.mem_erase.mp hmem).2
  · refine ⟨_,rfl,h.enter ?_ habs hval⟩
    have hfil := h.filled
    rw [h.card] at hf hfil
    omega

theorem Pool.Holds.absent (h : p.Holds l) (hix : l.length ≤ idx) : idx ∉ p.items := by
  intro hmem
  obtain ⟨x,hx⟩ := Finmap.mem_iff.mp hmem
  have hlt := (List.getElem?_eq_some_iff.mp (h.value idx x hx)).1
  omega

theorem Pool.Holds.pushed (h : p.Holds l) (item : T) : p.Holds (l ++ [item]) := by
  refine ⟨h.room,h.filled,h.once,h.named,?_⟩
  intro idx x hx
  have hin := h.value idx x hx
  rw [List.getElem?_append_left (List.getElem?_eq_some_iff.mp hin).1]
  exact hin

theorem Pool.Holds.popped (h : p.Holds (l ++ [item])) : (p.remove l.length).Holds l := by
  have hrmd := h.remove l.length
  refine ⟨hrmd.room,hrmd.filled,hrmd.once,hrmd.named,?_⟩
  intro idx x hx
  have hin := hrmd.value idx x hx
  rw [List.getElem?_append] at hin
  split_ifs at hin with hlt
  · exact hin
  · have hix : idx = l.length := by
      have hl := (List.getElem?_eq_some_iff.mp hin).1
      rw [List.length_singleton] at hl
      omega
    subst hix
    exfalso
    rw [Pool.remove] at hx
    split at hx
    · rename_i hn
      cases hx.symm.trans hn
    · cases hx.symm.trans (Finmap.lookup_erase l.length p.items)

end Cache

variable {content : Option Bytes} {position : ℕ} {bs rest its idxs : Bytes}

section Refinement

variable {T : Type} (S : Serializer T)

def sizes (l : List T) : List ℕ := l.map fun item => (S.write item).length

structure Stored (v : Swapped T) (l : List T) : Prop where
  itemsFile : ∃ stale, v.itemsFile = ⟨some (l.flatMap S.write ++ stale), true, false⟩
  indexesFile : ∃ stale, v.indexesFile =
    ⟨some (writeWord 8 l.length ++ ((sizes S l).flatMap (writeWord 4) ++ stale)), true, false⟩
  offsets : v.offsets = offsetsFrom 0 (sizes S l)
  itemsFileSize : v.itemsFileSize = (sizes S l).sum
  pool : v.toPool.Holds l
  count : l.length < 2 ^ 61

theorem offsetsFrom_length (start : ℕ) (sizes : List ℕ) :
    (offsetsFrom start sizes).length = sizes.length := by
  induction sizes generalizing start with
  | nil => rfl
  | cons _ _ ih => rw [offsetsFrom, List.length_cons, List.length_cons, ih]

theorem offsetsFrom_append {start : ℕ} {front : List ℕ} {last : ℕ} :
    offsetsFrom start (front ++ [last]) = offsetsFrom start front ++ [start + front.sum] := by
  induction front generalizing start with
  | nil => rfl
  | cons _ _ ih =>
    rw [List.cons_append, offsetsFrom, ih, offsetsFrom, List.sum_cons, List.cons_append, add_assoc]

theorem offsetsFrom_getElem? (start : ℕ) (sizes : List ℕ) {idx : ℕ} (h : idx < sizes.length) :
    (offsetsFrom start sizes)[idx]? = some (start + (sizes.take idx).sum) := by
  induction sizes generalizing start idx with
  | nil => cases h
  | cons _ _ ih =>
    cases idx with
    | zero => rfl
    | succ _ =>
      rw [offsetsFrom, List.getElem?_cons_succ, ih _ (Nat.lt_of_succ_lt_succ h),
        List.take_succ_cons, List.sum_cons, add_assoc]

theorem written_length (l : List T) : (l.flatMap S.write).length = (sizes S l).sum := by
  rw [List.length_flatMap]
  rfl

theorem writtenSizes_length (l : List T) :
    ((sizes S l).flatMap (writeWord 4)).length = 4 * l.length := by
  rw [List.length_flatMap, sizes, List.map_map]
  induction l with
  | nil => rfl
  | cons _ _ ih =>
    rw [List.map_cons, List.sum_cons, ih, List.length_cons]
    show (writeWord 4 _).length + _ = _
    rw [writeWord_length]
    omega

variable {S} {v : Swapped T} {l : List T} {action : Action T} {actions : List (Action T)}
  {poolSize : ℕ}

theorem Stored.length (h : Stored S v l) : v.offsets.length = l.length := by
  rw [h.offsets, offsetsFrom_length, sizes, List.length_map]

theorem put_ok (h : position + bs.length ≤ maxOffset) :
    FileStream.put ⟨content, true, false⟩ position bs =
    ⟨some (overwrite (content.getD []) position bs), true, false⟩ := by
  rw [FileStream.put, if_neg Bool.false_ne_true, if_neg (by omega)]
  rfl

theorem put_failed (h : maxOffset < position + bs.length) :
    (FileStream.put ⟨content, true, false⟩ position bs).failed = true := by
  rw [FileStream.put, if_neg Bool.false_ne_true, if_pos h]
  rfl

theorem put_count {cnt o : ℕ} :
    FileStream.put ⟨some (writeWord 8 cnt ++ rest), true, false⟩ 0 (writeWord 8 o) =
      ⟨some (writeWord 8 o ++ rest), true, false⟩ := by
  rw [put_ok (by rw [writeWord_length]; decide)]
  congr 2
  apply overwrite_start
  rw [writeWord_length, writeWord_length]

theorem Stored.operatorAt (h : Stored S v l) (idx : ℕ) : ∃ v', Stored S v' l ∧
    operatorAt S idx v = ((match l[idx]? with
      | none => .error .thrown
      | some item => .ok item), v') := by
  unfold SwappedFiles.operatorAt
  cases hc : v.items.lookup idx with
  | some item =>
    have hmem : idx ∈ v.items := Finmap.mem_of_lookup_eq_some hc
    rw [h.pool.value idx item hc]
    refine ⟨{ v with toPool := v.toPool.touch idx },?_,rfl⟩
    exact ⟨h.itemsFile,h.indexesFile,h.offsets,h.itemsFileSize,h.pool.touch hmem,h.count⟩
  | none =>
    by_cases hix : idx < l.length
    · obtain ⟨stale,hf⟩ := h.itemsFile
      have hi : l[idx]? = some (l.get ⟨idx,hix⟩) := List.getElem?_eq_getElem hix
      have hofs : v.offsets[idx]? = some ((sizes S l).take idx).sum := by
        rw [h.offsets, offsetsFrom_getElem? 0 _ (by rwa [sizes, List.length_map]), zero_add]
      -- the file from the offset on: the item, the items above it and stale bytes
      have hd : v.itemsFile.bytes.drop ((sizes S l).take idx).sum =
          S.write (l.get ⟨idx,hix⟩) ++ ((l.drop (idx + 1)).flatMap S.write ++ stale) := by
        have hspl : l.flatMap S.write = (l.take idx).flatMap S.write ++
            (S.write (l.get ⟨idx,hix⟩) ++ (l.drop (idx + 1)).flatMap S.write) := by
          conv_lhs => rw [← List.take_append_drop idx l, List.drop_eq_getElem_cons hix]
          rw [List.flatMap_append, List.flatMap_cons]
          rfl
        have hlen : ((sizes S l).take idx).sum = ((l.take idx).flatMap S.write).length := by
          rw [written_length, sizes, sizes, List.map_take]
        show (v.itemsFile.content.getD []).drop _ = _
        rw [hf, hlen]
        show (l.flatMap S.write ++ stale).drop _ = _
        rw [hspl, List.append_assoc, List.drop_left, List.append_assoc]
      have habs : idx ∉ v.items := Finmap.lookup_eq_none.mp hc
      obtain ⟨q,hp,hhol⟩ := h.pool.prepare habs hi
      have hg : v.itemsFile.failed = false := by rw [hf]
      simp only [hofs, hg, hd, S.exact, hp, hi]
      refine ⟨{ v with toPool := q },?_,rfl⟩
      exact ⟨⟨stale,hf⟩,h.indexesFile,h.offsets,h.itemsFileSize,hhol,h.count⟩
    · have hofs : v.offsets[idx]? = none := by
        rw [List.getElem?_eq_none_iff, h.length]
        omega
      have hn : l[idx]? = none := by
        rw [List.getElem?_eq_none_iff]
        omega
      simp only [hofs, hn]
      exact ⟨v,h,rfl⟩

theorem Stored.clear (h : Stored S v l) : ∃ v', Stored S v' [] ∧ clear v = (.ok (), v') := by
  obtain ⟨_,hits⟩ := h.itemsFile
  obtain ⟨_,hixs⟩ := h.indexesFile
  unfold SwappedFiles.clear
  rw [hixs, put_count]
  refine ⟨_,?_,rfl⟩
  exact ⟨⟨_,hits⟩,⟨_,rfl⟩,rfl,rfl,.empty h.pool.room,Nat.two_pow_pos 61⟩

theorem Stored.popBack {item : T} (h : Stored S v (l ++ [item])) :
    ∃ v', Stored S v' l ∧ popBack v = (.ok (), v') := by
  obtain ⟨stale,hits⟩ := h.itemsFile
  obtain ⟨stale',hixs⟩ := h.indexesFile
  have hlen := h.length
  have hcnt := h.count
  rw [List.length_append, List.length_singleton] at hlen hcnt
  have hs : sizes S (l ++ [item]) = sizes S l ++ [(S.write item).length] := List.map_append
  have ho : v.offsets = offsetsFrom 0 (sizes S l) ++ [(sizes S l).sum] := by
    rw [h.offsets, hs, offsetsFrom_append, zero_add]
  have hl : lastIndex v = l.length := by
    rw [lastIndex, hlen]
    omega
  unfold SwappedFiles.popBack
  rw [hixs, put_count, ho, List.getLast?_concat, hl, ← ho, hlen, Nat.add_sub_cancel]
  refine ⟨_,?_,rfl⟩
  constructor
  · refine ⟨S.write item ++ stale,?_⟩
    rw [hits, List.flatMap_append, List.append_assoc, List.flatMap_singleton]
  · refine ⟨writeWord 4 (S.write item).length ++ stale',?_⟩
    rw [hs, List.flatMap_append, List.append_assoc, List.flatMap_singleton]
  · show v.offsets.dropLast = _
    rw [ho, List.dropLast_concat]
  · rfl
  · exact h.pool.popped
  · omega

theorem Stored.pushBack_ok (h : Stored S v l) (item : T)
    (hfst : v.itemsFileSize + (S.write item).length ≤ maxOffset)
    (hsnd : 8 + 4 * l.length + 4 ≤ maxOffset) :
    ∃ v', Stored S v' (l ++ [item]) ∧ pushBack S item v = (.ok (), v') := by
  obtain ⟨stale,hits⟩ := h.itemsFile
  obtain ⟨stale',hixs⟩ := h.indexesFile
  have hfrt : 8 + 4 * l.length =
      (writeWord 8 l.length ++ (sizes S l).flatMap (writeWord 4)).length := by
    rw [List.length_append, writeWord_length, writtenSizes_length]
  have hnew : (l ++ [item])[l.length]? = some item := List.getElem?_concat_length
  obtain ⟨_,hp,hhol⟩ := (h.pool.pushed item).prepare (h.pool.absent le_rfl) hnew
  have hput : FileStream.put (FileStream.put ⟨some (writeWord 8 l.length ++
      ((sizes S l).flatMap (writeWord 4) ++ stale')), true, false⟩ (8 + 4 * l.length)
        (writeWord 4 (S.write item).length)) 0 (writeWord 8 (l.length + 1)) =
      ⟨some (writeWord 8 (l.length + 1) ++ ((sizes S l).flatMap (writeWord 4) ++
        (writeWord 4 (S.write item).length ++ stale'.drop 4))), true, false⟩ := by
    rw [put_ok (by rwa [writeWord_length]), Option.getD_some, ← List.append_assoc, hfrt,
      overwrite_append, List.append_assoc, put_count, writeWord_length]
  unfold SwappedFiles.pushBack
  rw [hits, hixs, h.length, if_neg Bool.false_ne_true]
  dsimp only
  rw [Nat.add_sub_cancel_left, List.length_append, List.length_singleton, Nat.add_sub_cancel,
    h.length, put_ok hfst, if_neg Bool.false_ne_true, if_neg Bool.false_ne_true, hput,
    if_neg Bool.false_ne_true, hp]
  have hs : sizes S (l ++ [item]) = sizes S l ++ [(S.write item).length] := List.map_append
  refine ⟨_,?_,rfl⟩
  constructor
  · refine ⟨stale.drop (S.write item).length,?_⟩
    dsimp only
    rw [h.itemsFileSize, ← written_length, Option.getD_some, overwrite_append,
      List.flatMap_append, List.flatMap_singleton, List.append_assoc]
  · refine ⟨stale'.drop 4,?_⟩
    rw [hs, List.flatMap_append, List.flatMap_singleton, List.append_assoc, List.length_append,
      List.length_singleton]
  · show v.offsets ++ [v.itemsFileSize] = _
    rw [hs, offsetsFrom_append, zero_add, ← h.offsets, ← h.itemsFileSize]
  · show v.itemsFileSize + (S.write item).length = _
    rw [hs, List.sum_append, List.sum_singleton, ← h.itemsFileSize]
  · exact hhol
  · rw [maxOffset] at hsnd
    rw [List.length_append, List.length_singleton]
    omega

theorem Stored.pushBack (h : Stored S v l) (item : T) : (pushBack S item v).1 = .error .unwritten ∨
      ∃ v', Stored S v' (l ++ [item]) ∧ pushBack S item v = (.ok (), v') := by
  obtain ⟨_,hits⟩ := h.itemsFile
  obtain ⟨_,hixs⟩ := h.indexesFile
  by_cases hfst : maxOffset < v.itemsFileSize + (S.write item).length
  · left
    unfold SwappedFiles.pushBack
    rw [hits, if_neg Bool.false_ne_true, if_pos (put_failed hfst)]
  · by_cases hsnd : maxOffset < 8 + 4 * l.length + 4
    · left
      have hs : ∀ (f : FileStream) position bs, f.failed = true →
          (f.put position bs).failed = true := by
        intro f position bs hf
        rw [FileStream.put, if_pos hf, hf]
      unfold SwappedFiles.pushBack
      rw [hits, hixs, h.length, if_neg Bool.false_ne_true]
      dsimp only
      rw [put_ok (not_lt.mp hfst), if_neg Bool.false_ne_true, if_neg Bool.false_ne_true,
        if_pos (hs _ _ _ (put_failed (by rwa [writeWord_length])))]
    · exact .inr (h.pushBack_ok item (not_lt.mp hfst) (not_lt.mp hsnd))

theorem readSizes_exact : Exact readSizes (fun l => writeWord 8 l.length ++ l.flatMap (writeWord 4))
    fun l => l.length < 256 ^ 8 ∧ ∀ size ∈ l, size < 256 ^ 4 :=
  counted_exact (readWord_exact 8) (readWord_exact 4)

def opened (items indexes : Bytes) : Swapped T where
  toPool := (Swapped.fresh none none : Swapped T).toPool
  itemsFile := ⟨some items, true, false⟩
  indexesFile := ⟨some indexes, true, false⟩
  offsets := []
  itemsFileSize := 0

theorem open_existing (hp : 0 < poolSize) :
    Swapped.open (.fresh (some its) (some idxs) : Swapped T) poolSize =
      (opened its idxs).load poolSize := by
  rw [Swapped.open, if_neg (Nat.pos_iff_ne_zero.mp hp)]
  rfl

theorem load_ok {sizes : List ℕ}
    (h : readSizes.run idxs = some (sizes, rest)) :
    (opened its idxs : Swapped T).load poolSize =
      (true, { (opened its idxs : Swapped T).emptied poolSize with
        offsets := offsetsFrom 0 sizes
        itemsFileSize := sizes.sum }) := by
  rw [Swapped.load, show (opened its idxs : Swapped T).indexesFile.bytes = idxs from rfl, h]

theorem Stored.restart (h : Stored S v l) (hp : 0 < poolSize)
    (hsm : ∀ item ∈ l, (S.write item).length < 2 ^ 32) : ∃ v', Stored S v' l ∧
      Swapped.open (.fresh v.itemsFile.content v.indexesFile.content) poolSize = (true, v') := by
  obtain ⟨stale,hits⟩ := h.itemsFile
  obtain ⟨stale',hixs⟩ := h.indexesFile
  have hr : readSizes.run (writeWord 8 l.length ++
      ((sizes S l).flatMap (writeWord 4) ++ stale')) = some (sizes S l, stale') := by
    rw [readSizes_exact]
    have hlen : (sizes S l).length = l.length := List.length_map _
    refine ⟨⟨?_,?_⟩,?_⟩
    · rw [hlen]
      exact h.count.trans (by decide)
    · intro size hs
      obtain ⟨item,hi,rfl⟩ := List.mem_map.mp hs
      exact hsm item hi
    · dsimp only
      rw [hlen, List.append_assoc]
  rw [hits, hixs, open_existing hp, load_ok hr]
  refine ⟨_,?_,rfl⟩
  exact ⟨⟨stale,rfl⟩,⟨stale',rfl⟩,rfl,rfl,.empty hp,h.count⟩

theorem stored_create (hp : 0 < poolSize) : ∃ v,
    Stored S v [] ∧ Swapped.open (.fresh none none) poolSize = (true, v) := by
  refine ⟨(Swapped.open (.fresh none none) poolSize).2,?_,?_⟩
  · rw [Swapped.open, if_neg (Nat.pos_iff_ne_zero.mp hp)]
    exact ⟨⟨[],rfl⟩,⟨[],rfl⟩,rfl,rfl,.empty hp,Nat.two_pow_pos 61⟩
  · rw [Swapped.open, if_neg (Nat.pos_iff_ne_zero.mp hp)]
    rfl

theorem Stored.perform (h : Stored S v l) (hprp : Proper S (action :: actions) l) :
    (perform S action v).1 = .error .unwritten ∨ (perform S action v).1 = (plain action l).1 ∧
        ((plain action l).1 = .error .undefined ∨
          Stored S (perform S action v).2 (plain action l).2) := by
  have hat : ∀ idx, Prod.map (Except.map .item) id (SwappedFiles.operatorAt S idx v) =
      (itemOf l[idx]?, (SwappedFiles.operatorAt S idx v).2) ∧
      Stored S (SwappedFiles.operatorAt S idx v).2 l := by
    intro idx
    obtain ⟨v',hsto,heq⟩ := h.operatorAt idx
    rw [heq]
    refine ⟨?_,hsto⟩
    cases l[idx]? <;> rfl
  cases action with
  | pushBack item =>
    rcases h.pushBack item with hfl | ⟨v',hsto,heq⟩
    · left
      show Except.map _ (SwappedFiles.pushBack S item v).1 = _
      rw [hfl]
      rfl
    · right
      rw [SwappedFiles.perform, heq]
      exact ⟨rfl,.inr hsto⟩
  | popBack =>
    right
    rcases List.eq_nil_or_concat l with rfl | ⟨lower,item,rfl⟩
    · have hnil : v.offsets.getLast? = none := by rw [h.offsets]; rfl
      obtain ⟨_,hixs⟩ := h.indexesFile
      refine ⟨?_,.inl rfl⟩
      rw [SwappedFiles.perform, SwappedFiles.popBack, hixs, put_count, hnil]
      rfl
    · rw [List.concat_eq_append] at h ⊢
      obtain ⟨v',hsto,heq⟩ := h.popBack
      have hpln : plain (.popBack : Action T) (lower ++ [item]) = (.ok .done, lower) := by
        cases lower with
        | nil => rfl
        | cons x lower =>
          show (_, (x :: lower ++ [item]).dropLast) = _
          rw [List.dropLast_concat]
      rw [SwappedFiles.perform, heq, hpln]
      exact ⟨rfl,.inr hsto⟩
  | clear =>
    right
    obtain ⟨v',hsto,heq⟩ := h.clear
    rw [SwappedFiles.perform, heq]
    exact ⟨rfl,.inr hsto⟩
  | operatorAt idx =>
    right
    rw [SwappedFiles.perform, (hat idx).1]
    exact ⟨rfl,.inr (hat idx).2⟩
  | front =>
    right
    rw [SwappedFiles.perform, front, (hat 0).1]
    refine ⟨?_,.inr (hat 0).2⟩
    rw [plain, List.head?_eq_getElem?]
  | back =>
    right
    have hl : l[lastIndex v]? = l.getLast? := by
      have hcnt := h.count
      rw [List.getLast?_eq_getElem?, lastIndex, h.length]
      cases l with
      | nil => rw [List.getElem?_nil, List.getElem?_nil]
      | cons _ l =>
        rw [List.length_cons] at hcnt ⊢
        have hix : (l.length + 1 + (2 ^ 64 - 1)) % 2 ^ 64 = l.length + 1 - 1 := by omega
        rw [hix]
    rw [SwappedFiles.perform, back, (hat (lastIndex v)).1, hl]
    exact ⟨rfl,.inr (hat (lastIndex v)).2⟩
  | size =>
    right
    refine ⟨?_,.inr h⟩
    rw [SwappedFiles.perform, plain, h.length]
  | restart _ =>
    right
    obtain ⟨v',hsto,heq⟩ := h.restart hprp.1.1 hprp.1.2
    rw [SwappedFiles.perform, heq]
    exact ⟨rfl,.inr hsto⟩
  | reopen _ => exact absurd hprp not_false

theorem Proper.tail (h : Proper S (action :: actions) l) : Proper S actions (plain action l).2 := by
  cases action with
  | restart _ => exact h.2
  | reopen _ => exact absurd h not_false
  | _ => exact h

theorem Stored.outcomes (h : Stored S v l) (hprp : Proper S actions l)
    (hwr : .error .unwritten ∉ outcomes (SwappedFiles.perform S) actions v) :
    outcomes (SwappedFiles.perform S) actions v = outcomes plain actions l := by
  induction actions generalizing v l with
  | nil => rfl
  | cons action _ ih =>
    by_cases hdef : (SwappedFiles.perform S action v).1 = .error .undefined
    · rcases h.perform hprp with hfl | ⟨hs,-⟩
      · cases hfl.symm.trans hdef
      · rw [outcomes_undefined hdef, outcomes_undefined (hs ▸ hdef)]
    · rw [outcomes_defined hdef] at hwr ⊢
      have ht : (SwappedFiles.perform S action v).1 ≠ .error .unwritten := by
        intro hfl
        exact hwr (hfl ▸ List.mem_cons_self)
      obtain ⟨hs,hn⟩ := (h.perform hprp).resolve_left ht
      rw [hs] at hdef ⊢
      rw [outcomes_defined hdef]
      congr 1
      apply ih (hn.resolve_left hdef)
      · exact hprp.tail
      · exact fun hmem => hwr (List.mem_cons_of_mem _ hmem)

/-- An object opens new files, and every sequence of proper calls has the
outcomes that it has on a plain list, as long as the files can be written. A
restart is one of the calls. -/
theorem swapped_is_list (S : Serializer T) {poolSize : ℕ} (hpool : 0 < poolSize)
    {actions : List (Action T)} (hproper : Proper S actions []) (hwritten : .error .unwritten ∉
      outcomes (perform S) actions (Swapped.open (.fresh none none) poolSize).2) :
    (Swapped.open (.fresh none none : Swapped T) poolSize).1 = true ∧
      outcomes (perform S) actions (Swapped.open (.fresh none none) poolSize).2 =
        outcomes plain actions [] := by
  obtain ⟨_,hsto,heq⟩ := stored_create (S := S) hpool
  rw [heq] at hwritten ⊢
  exact ⟨rfl,hsto.outcomes hproper hwritten⟩

end Refinement

def byteSerializer : Serializer UInt8 where
  write := fun byte => [byte]
  read := readByte
  exact := fun _ _ => (readByte_exact _ _ _).mpr ⟨trivial,rfl⟩

def sampleActions : List (Action UInt8) :=
  [.pushBack 5, .pushBack 7, .operatorAt 0, .popBack, .pushBack 9, .restart 1, .back, .front,
    .operatorAt 2, .size]

theorem swapped_is_list_sample :
    outcomes (perform byteSerializer) sampleActions (Swapped.open (.fresh none none) 1).2 =
      [.ok .done, .ok .done, .ok (.item 5), .ok .done, .ok .done, .ok (.opened true),
        .ok (.item 9), .ok (.item 5), .error .thrown, .ok (.size 2)] := by
  have hprp : Proper byteSerializer sampleActions [] := by
    refine ⟨⟨Nat.zero_lt_one,?_⟩,trivial⟩
    intro item hi
    exact Nat.one_lt_two_pow (by decide)
  refine (swapped_is_list byteSerializer Nat.zero_lt_one hprp ?_).2.trans ?_
  · decide +kernel
  · decide +kernel

def unevenWrite (large : Bytes) (item : Bool) : Bytes := if item then 1 :: large else [0]

def unevenRead (large : Bytes) : Reader Bool
  | [] => none
  | first :: rest =>
    if first = 0 then some (false, rest)
    else if large.length ≤ rest.length then some (true, rest.drop large.length)
    else none

theorem unevenRead_written (large : Bytes) (item : Bool) (rest : Bytes) :
    (unevenRead large).run (unevenWrite large item ++ rest) = some (item, rest) := by
  cases item with
  | false => rfl
  | true =>
    have hlen : large.length ≤ (large ++ rest).length := by
      rw [List.length_append]
      omega
    show (if large.length ≤ (large ++ rest).length then
      some (true, (large ++ rest).drop large.length) else none) = _
    rw [if_pos hlen, List.drop_left]

def unevenSerializer (large : Bytes) : Serializer Bool where
  write := unevenWrite large
  read := unevenRead large
  exact := unevenRead_written large

def misled (items indexes : Bytes) : Swapped Bool :=
  { (opened items indexes : Swapped Bool).emptied 1 with offsets := [0, 0], itemsFileSize := 1 }

theorem operatorAt_misled {S : Serializer Bool} (indexes : Bytes) {item : Bool}
    (h : S.read.run its = some (item, rest)) :
    (operatorAt S 1 (misled its indexes)).1 = .ok item := by
  have habs : (misled its indexes).items.lookup 1 = none := rfl
  have hofs : (misled its indexes).offsets[1]? = some 0 := rfl
  have hbys : (misled its indexes).itemsFile.bytes.drop 0 = its := rfl
  have hp : (misled its indexes).prepare 1 item = .ok ((misled its indexes).enter 1 item) := rfl
  simp only [operatorAt, habs, hofs, hbys, h, hp]
  rfl

theorem uneven_misread {large : Bytes} (hlg : large.length + 1 = 2 ^ 32) :
    outcomes (perform (unevenSerializer large))
        [.pushBack true, .pushBack false, .restart 1, .operatorAt 1]
        (Swapped.open (.fresh none none) 1).2 =
      [.ok .done, .ok .done, .ok (.opened true), .ok (.item true)] := by
  have ht : ((unevenSerializer large).write true).length = 2 ^ 32 := hlg
  obtain ⟨v,hv,ho⟩ := stored_create (S := unevenSerializer large) Nat.zero_lt_one
  have hr : v.itemsFileSize + ((unevenSerializer large).write true).length ≤ maxOffset := by
    rw [hv.itemsFileSize, ht]
    show 0 + 2 ^ 32 ≤ maxOffset
    decide
  obtain ⟨v',hv',hfst⟩ := hv.pushBack_ok true hr (by decide)
  have hr' : v'.itemsFileSize + ((unevenSerializer large).write false).length ≤ maxOffset := by
    rw [hv'.itemsFileSize]
    show ((unevenSerializer large).write true).length + 0 + 1 ≤ maxOffset
    rw [ht]
    decide
  obtain ⟨w,hw,hsnd⟩ := hv'.pushBack_ok false hr' (by decide)
  obtain ⟨stale,hits⟩ := hw.itemsFile
  obtain ⟨stale',hixs⟩ := hw.indexesFile
  have hs : sizes (unevenSerializer large) ([] ++ [true] ++ [false]) = [2 ^ 32, 1] := by
    rw [← ht]
    rfl
  have hre : readSizes.run (writeWord 8 2 ++ ([2 ^ 32, 1].flatMap (writeWord 4) ++ stale')) =
      some ([0, 1], stale') := by
    rw [readSizes_exact]
    exact ⟨⟨by decide,by decide⟩,rfl⟩
  have hfst' : perform (unevenSerializer large) (.pushBack true) v = (.ok .done, v') := by
    rw [perform, hfst]
    rfl
  have hsnd' : perform (unevenSerializer large) (.pushBack false) v' = (.ok .done, w) := by
    rw [perform, hsnd]
    rfl
  have hrestart : perform (unevenSerializer large) (.restart 1) w = (.ok (.opened true), misled
      (([] ++ [true] ++ [false]).flatMap (unevenSerializer large).write ++ stale)
      (writeWord 8 2 ++ ([2 ^ 32, 1].flatMap (writeWord 4) ++ stale'))) := by
    rw [perform, hits, hixs, hs]
    show Prod.map _ _ (Swapped.open (.fresh (some _) (some _)) 1) = _
    rw [open_existing Nat.zero_lt_one]
    show Prod.map _ _ (Swapped.load (opened _ (writeWord 8 2 ++ _)) 1) = _
    rw [load_ok hre]
    rfl
  have hi : (unevenSerializer large).read.run
      (([] ++ [true] ++ [false]).flatMap (unevenSerializer large).write ++ stale) =
      some (true, (unevenSerializer large).write false ++ stale) := by
    show (unevenSerializer large).read.run ([true, false].flatMap _ ++ stale) = _
    rw [List.flatMap_cons, List.flatMap_singleton, List.append_assoc]
    exact (unevenSerializer large).exact true _
  have hat := operatorAt_misled (writeWord 8 2 ++ ([2 ^ 32, 1].flatMap (writeWord 4) ++ stale')) hi
  rw [ho, outcomes_ok hfst', outcomes_ok hsnd', outcomes_ok hrestart, outcomes_defined]
  · rw [perform, Prod.map_fst, hat]
    rfl
  · rw [perform, Prod.map_fst, hat]
    exact fun h => by cases h

/-- Two ways to lose the list: the size of an item does not fit into 32 bits,
and the files are opened again through an object that has them open. -/
theorem list_lost : (∃ S : Serializer Bool, ∃ actions : List (Action Bool),
      (∀ action ∈ actions, ∀ poolSize, action ≠ .reopen poolSize) ∧ .error .unwritten ∉
        outcomes (perform S) actions (Swapped.open (.fresh none none) 1).2 ∧
      outcomes (perform S) actions (Swapped.open (.fresh none none) 1).2 ≠
        outcomes plain actions []) ∧ outcomes (perform byteSerializer) [.pushBack 5, .reopen 1]
        (Swapped.open (.fresh none none) 1).2 = [.ok .done, .ok (.opened false)] := by
  refine ⟨⟨unevenSerializer (List.replicate (2 ^ 32 - 1) 1),
    [.pushBack true, .pushBack false, .restart 1, .operatorAt 1],by simp,?_⟩,by decide +kernel⟩
  rw [uneven_misread (by rw [List.length_replicate, Nat.sub_add_cancel Nat.one_le_two_pow])]
  exact ⟨by decide,by decide⟩

end Orbis.SwappedFiles
