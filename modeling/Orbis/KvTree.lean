import Orbis.BinaryFields

/-!
# The tree of a binary message

A message is read into a tree before any field is asked for. A size has the
number of its bytes in its two low bits, a section the number of its entries
at the front, and an entry its type behind its name. Every value takes a byte
of its own, so counts that a message only claims end at its last byte. The
variable for the name is not cleared between the entries of a section. The
call stack, on which a message may nest one level for each of its bytes, is
not modelled.
-/

set_option autoImplicit false

namespace Orbis.KvTree

open FaultState ByteCodec BinaryFields

inductive LoadFault where
  | failedToRead
  | unknownType
  | invalidSignature
  | unknownVersion
  /-- No exception of the source: the bound on the depth has been met. -/
  | unfinished
  deriving DecidableEq

/-- The number of values is not in the source; one counts when it is begun. -/
structure Stream where
  rest : Bytes
  created : ℕ := 0

abbrev Load := EStateM LoadFault Stream

abbrev Members := List (Bytes × JsonValue)

variable {α β : Type} {x : Load α} {i j k l n m e d p q c : ℕ}

section Loader

def readBy (r : Reader α) : Load α := fun s =>
  match r.run s.rest with
  | some (a, rest) => .ok a { s with rest := rest }
  | none => .error .failedToRead s

def create : Load Unit := modify fun s => { s with created := s.created + 1 }

def readHigher : ℕ → ℕ → ℕ → Load ℕ
  | 0, _, value => pure value
  | bytesLeft + 1, i, value => do
    let n ← readBy readByte
    readHigher bytesLeft (i + 1) (value ||| n.toNat <<< (i * 8))

def bytesLeft (mark : UInt8) : ℕ :=
  if mark = 0 then 0 else if mark = 1 then 1 else if mark = 2 then 3 else 7

def readVarint : Load ℕ := do
  let b ← readBy readByte
  let value ← readHigher (bytesLeft (b &&& 3)) 1 b.toNat
  pure (value >>> 2)

def readName : Load Bytes := do
  let len ← readBy readByte
  readBy (readMany readByte len.toNat)

def emplace (name : Bytes) (v : JsonValue) (sec : Members) : Members :=
  if (sec.map Prod.fst).contains name then sec else sec ++ [(name, v)]

def putRead (sec : Bytes × Members) (encoded : Bytes) (v : JsonValue) : Bytes × Members :=
  let name := if encoded ≠ [] then encoded else sec.1
  (name, emplace name v sec.2)

def putEncoded (sec : Bytes × Members) (encoded : Bytes) (v : JsonValue) : Bytes × Members :=
  (encoded, sec.2 ++ [(encoded, v)])

variable (put : Bytes × Members → Bytes → JsonValue → Bytes × Members)

def loadFields (entry : Load JsonValue) : ℕ → Bytes × Members → Load Members
  | 0, sec => pure sec.2
  | count + 1, sec => do
    let encoded ← readName
    let v ← entry
    loadFields entry count (put sec encoded v)

def loadItems (value : Load JsonValue) : ℕ → Load (List JsonValue)
  | 0 => pure []
  | count + 1 => do
    let v ← value
    let rest ← loadItems value count
    pure (v :: rest)

def loadSection (entry : Load JsonValue) : Load JsonValue := do
  create
  let count ← readVarint
  let sec ← loadFields put entry count ([], [])
  pure (.object sec)

def loadArray (value : Load JsonValue) : Load JsonValue := do
  create
  let count ← readVarint
  let items ← loadItems value count
  pure (.array items)

def loadEntry (value : UInt8 → Load JsonValue) : Load JsonValue := do
  let type ← readBy readByte
  if type &&& 0x80 ≠ 0 then loadArray (value (type &&& 0x7f)) else value type

def pod : UInt8 → Option (ℕ × (ℕ → JsonValue))
  | 1 => some (8, fun word => .integer (UInt64.ofNat word).toInt64)
  | 2 => some (4, fun word => .integer (UInt32.ofNat word).toInt32.toInt64)
  | 3 => some (2, fun word => .integer (UInt16.ofNat word).toInt16.toInt64)
  | 4 => some (1, fun word => .integer (UInt8.ofNat word).toInt8.toInt64)
  | 5 => some (8, fun word => .integer (UInt64.ofNat word).toInt64)
  | 6 => some (4, fun word => .integer (UInt64.ofNat word).toInt64)
  | 7 => some (2, fun word => .integer (UInt64.ofNat word).toInt64)
  | 8 => some (1, fun word => .integer (UInt64.ofNat word).toInt64)
  | 9 => some (8, .real)
  | 11 => some (1, fun word => .bool (word ≠ 0))
  | _ => none

def readLeaf (r : Load α) (convert : α → JsonValue) : Load JsonValue := do
  create
  let a ← r
  pure (convert a)

def readString : Load Bytes := do
  let size ← readVarint
  readBy (readMany readByte size)

def loadValue : ℕ → UInt8 → Load JsonValue
  | 0, _ => throw .unfinished
  | depth + 1, type =>
    match pod type with
    | some (size, convert) => readLeaf (readBy (readWord size)) convert
    | none =>
      if type = 10 then readLeaf readString .string
      else if type = 12 then loadSection put (loadEntry (loadValue depth))
      else if type = 13 then loadArray (loadValue depth type)
      else throw .unknownType

def loadMessage (depth : ℕ) : Load JsonValue := do
  let signatureA ← readBy (readWord 4)
  let signatureB ← readBy (readWord 4)
  let ver ← readBy (readWord 1)
  if signatureA ≠ 0x01011101 ∨ signatureB ≠ 0x01020101 then throw .invalidSignature
  else if ver ≠ 1 then throw .unknownVersion
  else loadSection put (loadEntry (loadValue put depth))

/-- No message is deeper than its bytes are long. -/
def load : Load JsonValue := fun s => loadMessage put s.rest.length s

def parseBinary : Load JsonValue := load putRead

end Loader

variable {type : UInt8} {size : ℕ} {convert : ℕ → JsonValue} {val : UInt8 → Load JsonValue}

section Bounds

/-- Below the bound on the bytes the reader takes at least `k` of them and
begins at most as many values as it takes bytes and `i - k` more; if it stops,
at most `e` more. -/
structure Spends (i k e n : ℕ) (x : Load α) : Prop where
  ok : ∀ {s a t}, s.rest.length < n → x s = .ok a t → t.rest.length + k ≤ s.rest.length ∧
    t.created + t.rest.length + k ≤ s.created + s.rest.length + i
  error : ∀ {s f t}, s.rest.length < n → x s = .error f t → f ≠ .unfinished ∧
    t.created + t.rest.length ≤ s.created + s.rest.length + e

theorem Spends.lower (h : Spends i k e n x) (hm : m ≤ n) : Spends i k e m x :=
  ⟨fun hs => h.ok (hs.trans_le hm),fun hs => h.error (hs.trans_le hm)⟩

theorem Spends.bind {f : α → Load β} (hx : Spends i k e n x) (hf : ∀ a, Spends j l d (n - k) (f a))
    (h : e ≤ c ∧ i + d ≤ k + c ∧ q ≤ k + l ∧ i + j + q ≤ p + k + l) : Spends p q c n (x >>= f) := by
  refine ⟨fun hs heq => ?_,fun hs heq => ?_⟩
  · obtain ⟨a,u,ha,hb⟩ := bind_ok.mp heq
    have hu := hx.ok hs ha
    have := (hf a).ok (by omega) hb
    omega
  · rcases bind_error.mp heq with ha | ⟨a,u,ha,hb⟩
    · have := hx.error hs ha
      exact ⟨this.1,by omega⟩
    · have hu := hx.ok hs ha
      have := (hf a).error (by omega) hb
      exact ⟨this.1,by omega⟩

theorem spends_pure (e : ℕ) (a : α) : Spends 0 0 e n (pure a) := by
  refine ⟨fun _ heq => ?_,fun _ heq => ?_⟩ <;> cases heq
  exact ⟨le_rfl,le_rfl⟩

theorem spends_throw {f : LoadFault} (hf : f ≠ .unfinished) :
    Spends i k e n (throw f : Load α) := by
  refine ⟨fun _ heq => ?_,fun _ heq => ?_⟩ <;> cases heq
  exact ⟨hf,Nat.le_add_right _ _⟩

theorem spends_create : Spends 1 0 0 n create := by
  refine ⟨fun _ heq => ?_,fun _ heq => ?_⟩ <;> cases heq
  exact ⟨le_rfl,by dsimp only; omega⟩

theorem spends_readBy {r : Reader α} {w : α → Bytes} {P : α → Prop} (hr : Exact r w P)
    (hk : ∀ a, P a → k ≤ (w a).length) : Spends 0 k 0 n (readBy r) := by
  refine ⟨fun {s a t} _ heq => ?_,fun {s f t} _ heq => ?_⟩
  · unfold readBy at heq
    cases hrun : r.run s.rest with
    | none => simp [hrun] at heq
    | some p =>
      obtain ⟨a',rest⟩ := p
      obtain ⟨hP,hrest⟩ := (hr _ _ _).mp hrun
      simp only [hrun] at heq
      cases heq
      have := hk a hP
      simp only [hrest, List.length_append]
      omega
  · unfold readBy at heq
    cases hrun : r.run s.rest with
    | none =>
      simp only [hrun] at heq
      cases heq
      exact ⟨nofun,le_rfl⟩
    | some _ => simp [hrun] at heq

theorem spends_byte : Spends 0 1 0 n (readBy readByte) :=
  spends_readBy readByte_exact fun _ _ => le_rfl

theorem spends_bytes {cnt : ℕ} : Spends 0 0 0 n (readBy (readMany readByte cnt)) :=
  spends_readBy (readMany_exact readByte_exact cnt) fun _ _ => Nat.zero_le _

theorem spends_word (size : ℕ) : Spends 0 size 0 n (readBy (readWord size)) :=
  spends_readBy (readWord_exact size) fun _ _ => (writeWord_length ..).ge

theorem spends_readVarint : Spends 0 1 0 n readVarint := by
  have hh : ∀ left i value n, Spends 0 0 0 n (readHigher left i value) := by
    intro left
    induction left with
    | zero => exact fun _ _ _ => spends_pure 0 _
    | succ left ih => exact fun i value n => spends_byte.bind (fun _ => ih ..) (by omega)
  exact spends_byte.bind (fun b => (hh ..).bind (fun _ => spends_pure 0 _) ⟨le_rfl,le_rfl,le_rfl,
    le_rfl⟩) (by omega)

theorem spends_readName : Spends 0 1 0 n readName :=
  spends_byte.bind (fun _ => spends_bytes) (by omega)

theorem spends_readString : Spends 0 1 0 n readString :=
  spends_readVarint.bind (fun _ => spends_bytes) (by omega)

variable {put : Bytes × Members → Bytes → JsonValue → Bytes × Members} {en : Load JsonValue}

theorem spends_loadFields (h : Spends 1 1 1 n en) (cnt : ℕ) (sec : Bytes × Members) :
    Spends 0 0 1 n (loadFields put en cnt sec) := by
  induction cnt generalizing sec n with
  | zero => exact spends_pure 1 _
  | succ cnt ih =>
    have h' := h.lower (Nat.sub_le n 1)
    have hnext : ∀ encoded, Spends 0 0 1 (n - 1) (en >>= fun v =>
        loadFields put en cnt (put sec encoded v)) := fun encoded =>
      h'.bind (fun v => ih (h'.lower (Nat.sub_le _ 1)) _) (by omega)
    exact spends_readName.bind hnext (by omega)

theorem spends_loadItems (h : Spends 1 1 1 n en) (cnt : ℕ) : Spends 0 0 1 n (loadItems en cnt) := by
  induction cnt generalizing n with
  | zero => exact spends_pure 1 _
  | succ cnt ih =>
    have hnext : ∀ v, Spends 0 0 1 (n - 1) (loadItems en cnt >>= fun l => pure (v :: l)) :=
      fun v => (ih (h.lower (Nat.sub_le n 1))).bind (fun _ => spends_pure 1 _) (by omega)
    exact h.bind hnext (by omega)

theorem spends_begun {r : Load α} {f : α → Load JsonValue} (hr : ∀ n, Spends 0 1 0 n r)
    (hf : ∀ a, Spends 0 0 1 n (f a)) : Spends 1 1 1 (n + 1) (create >>= fun _ => r >>= f) := by
  have hnext : Spends 0 1 0 (n + 1) (r >>= f) := (hr (n + 1)).bind hf (by omega)
  exact spends_create.bind (fun _ => hnext) (by omega)

theorem spends_loadSection (h : Spends 1 1 1 n en) : Spends 1 1 1 (n + 1) (loadSection put en) :=
  spends_begun (fun _ => spends_readVarint) fun cnt =>
    (spends_loadFields h cnt _).bind (fun _ => spends_pure 1 _) (by omega)

theorem spends_loadArray (h : Spends 1 1 1 n en) : Spends 1 1 1 (n + 1) (loadArray en) :=
  spends_begun (fun _ => spends_readVarint) fun cnt =>
    (spends_loadItems h cnt).bind (fun _ => spends_pure 1 _) (by omega)

theorem spends_leaf {r : Load α} (hr : ∀ n, Spends 0 1 0 n r) (convert : α → JsonValue) :
    Spends 1 1 1 (n + 1) (readLeaf r convert) :=
  spends_begun hr fun _ => spends_pure 1 _

theorem pod_size (h : pod type = some (size, convert)) : 1 ≤ size := by
  unfold pod at h
  split at h <;> cases h <;> decide

theorem spends_loadEntry (h : ∀ type, Spends 1 1 1 n (val type)) :
    Spends 1 1 1 n (loadEntry val) := by
  refine spends_byte.bind (j := 1) (l := 1) (d := 1) (fun type => ?_) (by omega)
  split_ifs
  · cases n with
    | zero => exact (spends_loadArray (h _)).lower (Nat.zero_le _)
    | succ n => exact (spends_loadArray ((h _).lower (Nat.le_succ n))).lower (by omega)
  · exact (h type).lower (Nat.sub_le n 1)

theorem spends_loadValue (depth : ℕ) (type : UInt8) :
    Spends 1 1 1 depth (loadValue put depth type) := by
  induction depth generalizing type with
  | zero => exact ⟨fun hs => absurd hs (Nat.not_lt_zero _),fun hs => absurd hs (Nat.not_lt_zero _)⟩
  | succ depth ih =>
    unfold loadValue
    split
    next size convert hpod =>
      have hs := pod_size hpod
      exact spends_leaf (fun n => ⟨fun hn heq => by
        have := (spends_word size).ok hn heq
        omega,(spends_word size).error⟩) convert
    next =>
      split_ifs
      · exact spends_leaf (fun _ => spends_readString) _
      · exact spends_loadSection (spends_loadEntry ih)
      · exact spends_loadArray (ih type)
      · exact spends_throw nofun

/-- The parser stops by itself on every byte string, whatever it claims, and
begins at most as many values as there are bytes. -/
theorem parser_bounded (bytes : Bytes) : fault (parseBinary ⟨bytes, 0⟩) ≠ some .unfinished ∧
    (left (parseBinary ⟨bytes, 0⟩)).created ≤ bytes.length := by
  have h : Spends 1 10 0 (bytes.length + 1) (loadMessage putRead bytes.length) := by
    refine (spends_word 4).bind (p := 1) (fun a => (spends_word 4).bind (p := 1) (q := 6) (c := 0)
      (fun b => (spends_word 1).bind (p := 1) (q := 2) (c := 0) (j := 1) (l := 1) (d := 1)
        (fun ver => ?_) (by omega)) (by omega)) (by omega)
    split_ifs
    · exact spends_throw nofun
    · exact spends_throw nofun
    · exact (spends_loadSection (spends_loadEntry (spends_loadValue _))).lower (by omega)
  unfold parseBinary load
  dsimp only
  cases hr : loadMessage putRead bytes.length ⟨bytes,0⟩ with
  | ok v t =>
    have := h.ok (Nat.lt_succ_self _) hr
    refine ⟨nofun,?_⟩
    simp only [left] at this ⊢
    omega
  | error f t =>
    have := h.error (Nat.lt_succ_self _) hr
    refine ⟨fun heq => this.1 (Option.some.inj heq),?_⟩
    simp only [left] at this ⊢
    omega

end Bounds

section Names

def Paired (R : α → β → Prop) (x : Load α) (y : Load β) : Prop :=
  ∀ s, (∃ a b t, x s = .ok a t ∧ y s = .ok b t ∧ R a b) ∨
    ∃ f t, x s = .error f t ∧ y s = .error f t

variable {γ δ : Type} {R : α → β → Prop} {y : Load β}

theorem Paired.bind {S : γ → δ → Prop} {f : α → Load γ} {g : β → Load δ} (h : Paired R x y)
    (hfg : ∀ a b, R a b → Paired S (f a) (g b)) : Paired S (x >>= f) (y >>= g) := by
  intro s
  rcases h s with ⟨a,b,t,hx,hy,hr⟩ | ⟨e,t,hx,hy⟩
  · rw [bind_of_ok hx, bind_of_ok hy]
    exact hfg a b hr t
  · exact .inr ⟨e,t,bind_of_error hx,bind_of_error hy⟩

theorem paired_pure {a : α} {b : β} (h : R a b) : Paired R (pure a) (pure b) :=
  fun s => .inl ⟨a,b,s,rfl,rfl,h⟩

theorem paired_refl (x : Load α) : Paired Eq x x := by
  intro s
  cases hx : x s with
  | ok a t => exact .inl ⟨a,a,t,rfl,rfl,rfl⟩
  | error f t => exact .inr ⟨f,t,rfl,rfl⟩

theorem Paired.after {z : Load γ} {f : γ → Load α} {g : γ → Load β}
    (h : ∀ c, Paired R (f c) (g c)) : Paired R (z >>= f) (z >>= g) :=
  (paired_refl z).bind fun a _ heq => heq ▸ h a

inductive Sections (P : List Bytes → Prop) : JsonValue → Prop
  | leaf {v} (ha : ∀ l, v ≠ .array l) (ho : ∀ l, v ≠ .object l) : Sections P v
  | array {items} (h : ∀ v ∈ items, Sections P v) : Sections P (.array items)
  | object {members} (hP : P (members.map Prod.fst)) (h : ∀ e ∈ members, Sections P e.2) :
      Sections P (.object members)

def EmptyFirst (names : List Bytes) : Prop := [] ∉ names.tail

def Reads (v encoded : JsonValue) : Prop :=
  Sections List.Nodup encoded → (v = encoded ↔ Sections EmptyFirst encoded)

variable {P : List Bytes → Prop} {v w : JsonValue} {l r : Members} {name : Bytes}

theorem sections_array {l : List JsonValue} : Sections P (.array l) ↔ ∀ v ∈ l, Sections P v := by
  refine ⟨fun h => ?_,.array⟩
  cases h with
  | leaf ha _ => exact absurd rfl (ha l)
  | array h => exact h

theorem sections_object :
    Sections P (.object l) ↔ P (l.map Prod.fst) ∧ ∀ e ∈ l, Sections P e.2 := by
  refine ⟨fun h => ?_,fun h => .object h.1 h.2⟩
  cases h with
  | leaf _ ho => exact absurd rfl (ho l)
  | object hP h => exact ⟨hP,h⟩

theorem reads_leaf (ha : ∀ l, v ≠ .array l) (ho : ∀ l, v ≠ .object l) :
    Reads v v := fun _ => iff_of_true rfl (.leaf ha ho)

theorem reads_array {l r : List JsonValue} (h : List.Forall₂ Reads l r) :
    Reads (.array l) (.array r) := by
  intro hd
  rw [sections_array] at hd ⊢
  rw [JsonValue.array.injEq]
  induction h with
  | nil => simp
  | cons hv _ ih =>
    rw [List.cons.injEq, List.forall_mem_cons, hv (hd _ List.mem_cons_self),
      ih fun v hm => hd v (List.mem_cons_of_mem _ hm)]

theorem names_eq (h : List.Forall₂ (fun a b => a.1 = b.1 ∧ Reads a.2 b.2) l r) :
    l.map Prod.fst = r.map Prod.fst := by
  induction h with
  | nil => rfl
  | cons hab _ ih => rw [List.map_cons, List.map_cons, hab.1, ih]

def Follows (name : Bytes) (l r : Members) : Prop :=
  (r.map Prod.fst).Nodup →
    (EmptyFirst (r.map Prod.fst) ∧ name = (r.map Prod.fst).getLast?.getD [] ∧
      List.Forall₂ (fun a b => a.1 = b.1 ∧ Reads a.2 b.2) l r) ∨
    ¬ EmptyFirst (r.map Prod.fst) ∧ l.length < r.length

theorem emplace_new (h : name ∉ l.map Prod.fst) :
    emplace name v l = l ++ [(name, v)] := if_neg (by simpa using h)

theorem emplace_length (name : Bytes) (v : JsonValue) (l : Members) :
    (emplace name v l).length ≤ l.length + 1 := by
  unfold emplace
  split_ifs <;> simp

theorem Follows.put {sec enc : Bytes × Members} (h : Follows sec.1 sec.2 enc.2) (encoded : Bytes)
    (hv : Reads v w) :
    Follows (putRead sec encoded v).1 (putRead sec encoded v).2 (putEncoded enc encoded w).2 := by
  obtain ⟨name,l⟩ := sec
  obtain ⟨_,r⟩ := enc
  intro hd
  simp only [putEncoded, putRead, List.map_append, List.map_cons, List.map_nil] at h hd ⊢
  obtain ⟨hr,-,hnew⟩ := List.nodup_append.mp hd
  have hnew : encoded ∉ r.map Prod.fst := fun hm => hnew _ hm _ List.mem_cons_self rfl
  rcases h hr with ⟨hf,rfl,hall⟩ | ⟨hf,hlt⟩
  · by_cases he : encoded = []
    · subst he
      rcases r.eq_nil_or_concat' with rfl | ⟨r,last,rfl⟩
      · cases hall
        exact .inl ⟨nofun,rfl,.cons ⟨rfl,hv⟩ .nil⟩
      · -- the name of the entry before is there already
        refine .inr ⟨fun hf => hf ?_,?_⟩
        · rw [List.tail_append_of_ne_nil (by simp)]
          exact List.mem_append_right _ List.mem_cons_self
        · rw [emplace, if_pos (by simp [names_eq hall]), hall.length_eq]
          simp
    · refine .inl ⟨?_,by simp [he],?_⟩
      · intro hm
        rcases r with _ | ⟨e,r⟩
        · cases hm
        · rcases List.mem_append.mp hm with hm | hm
          · exact hf hm
          · exact he (List.mem_singleton.mp hm).symm
      · rw [if_pos he, emplace_new (names_eq hall ▸ hnew)]
        exact List.rel_append hall (.cons ⟨rfl,hv⟩ .nil)
  · refine .inr ⟨fun hf' => hf fun hm => hf' ?_,?_⟩
    · rw [List.tail_append_of_ne_nil (by rintro heq; rw [heq] at hm; cases hm)]
      exact List.mem_append_left _ hm
    · have := emplace_length (if encoded ≠ [] then encoded else name) v l
      simp only [List.length_append, List.length_singleton]
      omega

theorem reads_object (h : Follows name l r) : Reads (.object l) (.object r) := by
  intro hd
  rw [sections_object] at hd ⊢
  rw [JsonValue.object.injEq]
  rcases h hd.1 with ⟨hf,-,hall⟩ | ⟨hf,hlt⟩
  · rw [and_iff_right hf]
    replace hd := hd.2
    clear hf h
    induction hall with
    | nil => simp
    | cons hab _ ih =>
      rw [List.cons.injEq, Prod.ext_iff, and_iff_right hab.1, List.forall_mem_cons]
      exact and_congr (hab.2 (hd _ List.mem_cons_self))
        (ih fun e hm => hd e (List.mem_cons_of_mem _ hm))
  · refine iff_of_false (fun heq => ?_) fun h => hf h.1
    rw [heq] at hlt
    exact lt_irrefl _ hlt

variable {en en' : Load JsonValue}

theorem paired_fields (h : Paired Reads en en') (cnt : ℕ) {sec enc : Bytes × Members}
    (hs : Follows sec.1 sec.2 enc.2) : Paired (fun l r => ∃ name, Follows name l r)
      (loadFields putRead en cnt sec) (loadFields putEncoded en' cnt enc) := by
  induction cnt generalizing sec enc with
  | zero => exact paired_pure ⟨_,hs⟩
  | succ cnt ih =>
    exact Paired.after fun encoded => h.bind fun v w hv => ih (hs.put encoded hv)

theorem paired_items (h : Paired Reads en en') (cnt : ℕ) :
    Paired (List.Forall₂ Reads) (loadItems en cnt) (loadItems en' cnt) := by
  induction cnt with
  | zero => exact paired_pure .nil
  | succ cnt ih => exact h.bind fun v w hv => ih.bind fun l r hl => paired_pure (.cons hv hl)

theorem paired_section (h : Paired Reads en en') :
    Paired Reads (loadSection putRead en) (loadSection putEncoded en') := by
  refine Paired.after fun _ => Paired.after fun cnt => ?_
  have hs : Follows [] [] [] := fun _ => .inl ⟨nofun,rfl,.nil⟩
  refine (@paired_fields _ _ h cnt ([], []) ([], []) hs).bind ?_
  rintro l r ⟨name,hl⟩
  exact paired_pure (reads_object hl)

theorem paired_array (h : Paired Reads en en') : Paired Reads (loadArray en) (loadArray en') :=
  Paired.after fun _ => Paired.after fun cnt =>
    (paired_items h cnt).bind fun _ _ hl => paired_pure (reads_array hl)

theorem paired_entry {val' : UInt8 → Load JsonValue}
    (h : ∀ type, Paired Reads (val type) (val' type)) :
    Paired Reads (loadEntry val) (loadEntry val') := by
  refine Paired.after fun type => ?_
  split_ifs
  · exact paired_array (h _)
  · exact h type

theorem pod_leaf (h : pod type = some (size, convert))
    (word : ℕ) : Reads (convert word) (convert word) := by
  unfold pod at h
  split at h <;> cases h <;> exact reads_leaf nofun nofun

theorem paired_value (depth : ℕ) (type : UInt8) :
    Paired Reads (loadValue putRead depth type) (loadValue putEncoded depth type) := by
  induction depth generalizing type with
  | zero => exact fun s => .inr ⟨_,s,rfl,rfl⟩
  | succ depth ih =>
    unfold loadValue
    split
    next hpod => exact Paired.after fun _ => Paired.after fun w => paired_pure (pod_leaf hpod w)
    next =>
      split_ifs
      · exact Paired.after fun _ => Paired.after fun _ => paired_pure (reads_leaf nofun nofun)
      · exact paired_section (paired_entry ih)
      · exact paired_array (ih type)
      · exact fun s => .inr ⟨_,s,rfl,rfl⟩

/-- A tree that is read from a message with distinct names in each section is
the one that is encoded, unless an empty name follows another entry. -/
theorem sections_exact_iff (bytes : Bytes) :
    (∃ v encoded t, parseBinary ⟨bytes, 0⟩ = .ok v t ∧ load putEncoded ⟨bytes, 0⟩ = .ok encoded t ∧
      (Sections List.Nodup encoded → (v = encoded ↔ Sections EmptyFirst encoded))) ∨
    ∃ f t, parseBinary ⟨bytes, 0⟩ = .error f t ∧ load putEncoded ⟨bytes, 0⟩ = .error f t := by
  refine Paired.after (R := Reads) (fun a => Paired.after fun b => Paired.after fun ver => ?_) _
  split_ifs
  · exact fun s => .inr ⟨_,s,rfl,rfl⟩
  · exact fun s => .inr ⟨_,s,rfl,rfl⟩
  · exact paired_section (paired_entry (paired_value _))

def emptySecond : Bytes :=
  [1, 17, 1, 1, 1, 1, 2, 1, 1, 8, 1, 97, 8, 1, 0, 8, 2]

theorem empty_name_lost :
    value (parseBinary ⟨emptySecond, 0⟩) = some (.object [([97], .integer 1)]) ∧
      value (load putEncoded ⟨emptySecond, 0⟩) =
        some (.object [([97], .integer 1), ([], .integer 2)]) := ⟨rfl,rfl⟩

end Names

end Orbis.KvTree
