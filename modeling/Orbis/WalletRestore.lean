import Orbis.WalletArchive

/-!
# Restoring a synchronizer from its archive

An archive that was saved with some consumers and subscriptions is loaded
where only some of them are still there. A subscription that is gone is read
and left out. Of a consumer that is gone only the block list is read, so
everything behind it is read at the wrong place, and only the last consumer
of the archive may be gone.
-/

set_option autoImplicit false

namespace Orbis.WalletRestore

open FaultState ByteCodec ChainBinary UndoLog WalletState WalletArchive

section Save

variable (P : Platform) (accounts : ∀ x, P.Object x)

def writeString (blob : Bytes) : Bytes := writeContainer (fun byte => [byte]) blob

def writeAddress (acc : AccountPublicAddress) : Bytes :=
  acc.spendPublicKey.bytes ++ acc.viewPublicKey.bytes

def blobOf (x : Target) : Bytes := P.format.save x (accounts x)

def writeSubscription (viewKey spendKey : Bytes32) : Bytes :=
  writeAddress ⟨spendKey,viewKey⟩ ++ writeString (blobOf P accounts (.container viewKey spendKey))

def writeConsumer (c : Bytes32 × List Bytes32) : Bytes :=
  c.1.bytes ++ writeString (blobOf P accounts (.blocks c.1)) ++
    writeContainer (writeSubscription P accounts c.1) c.2

def Fits (c : Bytes32 × List Bytes32) : Prop :=
  (blobOf P accounts (.blocks c.1)).length < 2 ^ 64 ∧
    ∀ spendKey ∈ c.2, (blobOf P accounts (.container c.1 spendKey)).length < 2 ^ 64

instance (c : Bytes32 × List Bytes32) : Decidable (Fits P accounts c) :=
  inferInstanceAs (Decidable (_ ∧ ∀ spendKey ∈ c.2, _))

def save (genesis : Bytes32) (d : Directory) : Option Bytes :=
  if ∀ c ∈ d.consumers, Fits P accounts c then
    some (genesis.bytes ++ writeVarint archiveVersion.toNat ++
      writeContainer (writeConsumer P accounts) d.consumers)
  else none

end Save

theorem lookup_eq_some_iff {l : List (Bytes32 × List Bytes32)} (h : (l.map Prod.fst).Nodup)
    (vk : Bytes32) (subs : List Bytes32) : l.lookup vk = some subs ↔ (vk, subs) ∈ l := by
  induction l with
  | nil => simp
  | cons c rest ih =>
    obtain ⟨key,_⟩ := c
    rw [List.map_cons, List.nodup_cons] at h
    by_cases hkey : vk = key
    · subst hkey
      have hnot : (vk, subs) ∉ rest := fun hmem => h.1 (List.mem_map.mpr ⟨_,hmem,rfl⟩)
      simp [hnot, eq_comm]
    · have hbeq : (vk == key) = false := beq_false_of_ne hkey
      rw [List.lookup_cons, hbeq]
      simp [ih h.2, hkey]

theorem find_eq_some_iff (d : Directory) (vk : Bytes32) (subs : List Bytes32) :
    d.find vk = some subs ↔ (vk, subs) ∈ d.consumers :=
  lookup_eq_some_iff d.distinct vk subs

def targetsOf (d : Directory) (c : Bytes32 × List Bytes32) : List Target :=
  match d.find c.1 with
  | none => []
  | some subscriptions =>
    .blocks c.1 :: (c.2.filter fun spendKey => spendKey ∈ subscriptions).map (.container c.1)

variable {t : Directory} {x : Target} {subs : List Bytes32}

theorem mem_targetsOf {s : Directory} (h : ∀ x, t.Has x → s.Has x) (hx : t.Has x) :
    x ∈ s.consumers.flatMap (targetsOf t) := by
  rw [List.mem_flatMap]
  cases x with
  | blocks vk =>
    obtain ⟨subs,hf⟩ := hx
    obtain ⟨written,hwr⟩ := h (.blocks vk) ⟨subs,hf⟩
    refine ⟨(vk, written),(find_eq_some_iff s _ _).mp hwr,?_⟩
    rw [targetsOf, hf]
    exact List.mem_cons_self
  | container vk sk =>
    obtain ⟨subs,hf,hmem⟩ := hx
    obtain ⟨written,hwr,hspd⟩ := h (.container vk sk) ⟨subs,hf,hmem⟩
    refine ⟨(vk, written),(find_eq_some_iff s _ _).mp hwr,?_⟩
    rw [targetsOf, hf]
    refine List.mem_cons_of_mem _ (List.mem_map.mpr ⟨sk,?_,rfl⟩)
    exact List.mem_filter.mpr ⟨hspd,decide_eq_true hmem⟩

section Read

variable {P : Platform} {accounts : ∀ x, P.Object x} {d : Directory}

theorem take_of_read {α τ : Type} {r : Reader α} {inp rest : Bytes} {a : α} {objects : τ}
    (h : r.run inp = some (a, rest)) : take r ⟨inp,objects⟩ = .ok a ⟨rest,objects⟩ := by
  unfold take
  rw [h]

theorem readAddress_reads : Reads readAddress writeAddress := by
  intro acc rest
  rw [readAddress, writeAddress, List.append_assoc, readBytes32_reads.bind, readBytes32_reads.bind]
  rfl

theorem readString_written {blob : Bytes} (h : blob.length < 2 ^ 64) (rest : Bytes) :
    readString.run (writeString blob ++ rest) = some (blob, rest) :=
  (serializeContainer_exact readByte_exact _ _ _).mpr ⟨⟨h,fun _ _ => trivial⟩,rfl⟩

theorem readCount_written {cnt : ℕ} (h : cnt < 2 ^ 64) (rest : Bytes) :
    (readVarint 64).run (writeVarint cnt ++ rest) = some (cnt, rest) :=
  (readVarint_exact (by norm_num) _ _ _).mpr ⟨h,rfl⟩

theorem loadSubscriptions_written {vk : Bytes32} (written : List Bytes32)
    (hf : ∀ a ∈ written, (blobOf P accounts (.container vk a)).length < 2 ^ 64) (rest : Bytes)
    (cls : List (Target × Bytes)) : loadSubscriptions note vk subs written.length
        ⟨written.flatMap (writeSubscription P accounts vk) ++ rest,cls⟩ =
      .ok () ⟨rest,cls ++ ((written.filter fun a => a ∈ subs).map fun a =>
        (.container vk a, blobOf P accounts (.container vk a)))⟩ := by
  induction written generalizing cls with
  | nil => simp [loadSubscriptions]
  | cons a _ ih =>
    obtain ⟨hfst,ho⟩ := List.forall_mem_cons.mp hf
    rw [List.length_cons, loadSubscriptions, List.flatMap_cons, writeSubscription]
    simp only [List.append_assoc]
    rw [bind_of_ok (take_of_read (readAddress_reads _ _)),
      bind_of_ok (take_of_read (readString_written hfst _))]
    unfold loadSubscription
    by_cases hmem : a ∈ subs
    · rw [if_pos hmem]
      refine (bind_of_ok rfl).trans ?_
      refine (ih ho _).trans ?_
      simp [hmem]
    · rw [if_neg hmem, bind_of_ok (pure_run _ _), ih ho]
      simp [hmem]

theorem loadConsumer_written {c : Bytes32 × List Bytes32} (hf : d.find c.1 = some subs)
    (hfi : Fits P accounts c) (hs : c.2.length < 2 ^ 64) (rest : Bytes)
    (cls : List (Target × Bytes)) :
    loadConsumer note c.1 (blobOf P accounts (.blocks c.1)) (d.find c.1)
        ⟨writeContainer (writeSubscription P accounts c.1) c.2 ++ rest,cls⟩ =
      .ok () ⟨rest,cls ++ (targetsOf d c).map fun x => (x, blobOf P accounts x)⟩ := by
  have hb : visiting note (.blocks c.1) (blobOf P accounts (.blocks c.1))
      ⟨writeContainer (writeSubscription P accounts c.1) c.2 ++ rest,cls⟩ =
      .ok () ⟨writeContainer (writeSubscription P accounts c.1) c.2 ++ rest,
        cls ++ [(.blocks c.1, blobOf P accounts (.blocks c.1))]⟩ := rfl
  rw [targetsOf, hf, loadConsumer, bind_of_ok hb, writeContainer, List.append_assoc,
    bind_of_ok (take_of_read (readCount_written hs _)),
    loadSubscriptions_written c.2 hfi.2]
  simp

theorem loadConsumers_written (written : List (Bytes32 × List Bytes32))
    (hfi : ∀ c ∈ written, Fits P accounts c) (hs : ∀ c ∈ written, c.2.length < 2 ^ 64)
    (hl : ∀ c ∈ written.dropLast, (d.find c.1).isSome = true) (cls : List (Target × Bytes)) :
    ∃ rest, loadConsumers note d written.length ⟨written.flatMap (writeConsumer P accounts),cls⟩ =
      .ok () ⟨rest,cls ++ (written.flatMap (targetsOf d)).map fun x =>
        (x, blobOf P accounts x)⟩ := by
  induction written generalizing cls with
  | nil => exact ⟨[],by simp [loadConsumers]⟩
  | cons c os ih =>
    obtain ⟨hfit,hfi⟩ := List.forall_mem_cons.mp hfi
    obtain ⟨hcnt,hs⟩ := List.forall_mem_cons.mp hs
    rw [List.length_cons, loadConsumers, List.flatMap_cons, writeConsumer]
    simp only [List.append_assoc]
    rw [bind_of_ok (take_of_read (readBytes32_reads _ _)),
      bind_of_ok (take_of_read (readString_written hfit.1 _))]
    cases hf : d.find c.1 with
    | some _ =>
      rw [← hf, bind_of_ok (loadConsumer_written hf hfit hcnt _ _)]
      have ho : ∀ c' ∈ os.dropLast, (d.find c'.1).isSome = true := by
        intro c' hc'
        cases os with
        | nil => cases hc'
        | cons _ _ =>
          apply hl
          rw [List.dropLast_cons_cons]
          exact List.mem_cons_of_mem c hc'
      obtain ⟨rest,hrun⟩ := ih hfi hs ho
        (cls ++ (targetsOf d c).map fun x => (x, blobOf P accounts x))
      refine ⟨rest,hrun.trans ?_⟩
      simp
    | none =>
      -- only the last consumer can be gone, and nothing is read behind it
      cases os with
      | nil =>
        rw [loadConsumer, bind_of_ok (pure_run _ _)]
        refine ⟨writeContainer (writeSubscription P accounts c.1) c.2,?_⟩
        simp [loadConsumers, targetsOf, hf]
      | cons _ _ =>
        have ht := hl c (by rw [List.dropLast_cons_cons]; exact List.mem_cons_self)
        rw [hf] at ht
        cases ht

end Read

section Restore

variable {P : Platform} {ds dt : Directory} {genesis : Bytes32} {archive : Bytes}
  {s : ∀ x, P.Object x}

theorem script_saved (hs : save P s genesis ds = some archive)
    (hl : ∀ c ∈ ds.consumers.dropLast, (dt.find c.1).isSome = true) : script dt genesis archive =
      ⟨(ds.consumers.flatMap (targetsOf dt)).map fun x => (x, blobOf P s x),none⟩ := by
  unfold save at hs
  by_cases hf : ∀ c ∈ ds.consumers, Fits P s c
  · rw [if_pos hf] at hs
    cases hs
    have hhd : loadHeader genesis (genesis.bytes ++ writeVarint archiveVersion.toNat ++
        writeContainer (writeConsumer P s) ds.consumers) =
        .ok (writeContainer (writeConsumer P s) ds.consumers) := by
      rw [loadHeader, List.append_assoc, readBytes32_reads]
      dsimp only
      rw [if_neg (not_not.mpr rfl), readUInt32_exact.reads]
      rfl
    obtain ⟨rest,hrun⟩ := loadConsumers_written ds.consumers hf ds.size.2 hl []
    have hall : loadArchive note dt ⟨writeContainer (writeConsumer P s) ds.consumers,[]⟩ =
        .ok () ⟨rest,(ds.consumers.flatMap (targetsOf dt)).map fun x => (x, blobOf P s x)⟩ := by
      rw [loadArchive, writeContainer,
        bind_of_ok (take_of_read (readCount_written ds.size.1 _)), hrun]
      rfl
    rw [script, hhd]
    dsimp only
    rw [named, running, hall]
    rfl
  · rw [if_neg hf] at hs
    cases hs

/-- An archive that was saved with more consumers and subscriptions gives
each object that is there its saved state, if of the consumers in it none
but the last is gone. -/
theorem archive_restores (hsave : save P s genesis ds = some archive)
    (hsubset : ∀ x, dt.Has x → ds.Has x)
    (hlast : ∀ c ∈ ds.consumers.dropLast, (dt.find c.1).isSome = true) (t : ∀ x, P.Object x) :
    ∃ t', load dt P genesis archive t = .ok () t' ∧ ∀ x, dt.Has x → P.Same x (t' x) (s x) := by
  obtain ⟨t',hrun,hs⟩ := undoing_saved P.format_lawful s (ds.consumers.flatMap (targetsOf dt)) t
  refine ⟨t',?_,fun x hx => hs x (mem_targetsOf hsubset hx)⟩
  rw [load_eq, script_saved hsave hlast]
  exact hrun

def sampleSaved : Directory where
  consumers := [(sampleKey 1, [sampleKey 2]), (sampleKey 3, [sampleKey 4])]
  distinct := by decide
  apart := by decide
  size := by decide

def sampleSecond : Directory where
  consumers := [(sampleKey 3, [sampleKey 4])]
  distinct := by decide
  apart := by decide
  size := by decide

def advancedAccounts : ∀ x, samplePlatform.Object x
  | .blocks _ => ⟨[sampleKey 0, sampleKey 5],by decide⟩
  | .container _ _ => emptyContainer

theorem has_of_subset {s : Directory} (h : t.consumers ⊆ s.consumers) (hx : t.Has x) : s.Has x := by
  cases x with
  | blocks _ =>
    obtain ⟨subs,hf⟩ := hx
    exact ⟨subs,(find_eq_some_iff s _ _).mpr (h ((find_eq_some_iff t _ _).mp hf))⟩
  | container _ _ =>
    obtain ⟨subs,hf,hmem⟩ := hx
    exact ⟨subs, (find_eq_some_iff s _ _).mpr (h ((find_eq_some_iff t _ _).mp hf)),hmem⟩

def sampleArchive : Bytes :=
  (save samplePlatform advancedAccounts (sampleKey 0) sampleSaved).getD []

theorem sampleArchive_saved :
    save samplePlatform advancedAccounts (sampleKey 0) sampleSaved = some sampleArchive := by
  have hs : (save samplePlatform advancedAccounts (sampleKey 0) sampleSaved).isSome = true := by
    decide +kernel
  obtain ⟨_,ha⟩ := Option.isSome_iff_exists.mp hs
  rw [sampleArchive, ha]
  rfl

theorem archive_restores_sample :
    ∃ t', load sampleDirectory samplePlatform (sampleKey 0) sampleArchive freshAccounts =
        .ok () t' ∧
      ∀ x, sampleDirectory.Has x → samplePlatform.Same x (t' x) (advancedAccounts x) :=
  archive_restores sampleArchive_saved (fun _ => has_of_subset (by decide)) (by decide)
    freshAccounts

/-- The first consumer of the archive is gone. The load returns, and the
other consumer has not got its blocks. -/
theorem gone_consumer_misread :
    save samplePlatform advancedAccounts (sampleKey 0) sampleSaved = some sampleArchive ∧
    (∀ x, sampleSecond.Has x → sampleSaved.Has x) ∧
    ∃ t', load sampleSecond samplePlatform (sampleKey 0) sampleArchive freshAccounts = .ok () t' ∧
      sampleSecond.Has (.blocks (sampleKey 3)) ∧
      ¬ samplePlatform.Same (.blocks (sampleKey 3)) (t' (.blocks (sampleKey 3)))
        (advancedAccounts (.blocks (sampleKey 3))) := by
  have hrun : value (load sampleSecond samplePlatform (sampleKey 0) sampleArchive
      freshAccounts) = some () := by decide +kernel
  refine ⟨sampleArchive_saved,fun _ => has_of_subset (by decide),?_⟩
  refine ⟨_,eq_ok_of_value hrun,⟨[sampleKey 4],by decide⟩,?_⟩
  intro hs
  have hits := congrArg KnownBlocks.items hs
  revert hits
  decide +kernel

def sampleLucky : Directory where
  consumers := [(sampleKey 1, [sampleKey 2]), (sampleKey 3, [sampleKey 0]), (sampleKey 4, [])]
  distinct := by decide
  apart := by decide
  size := by decide

-- what is read behind the first gone consumer is another one that is not there
example :
    ((save samplePlatform advancedAccounts (sampleKey 0) sampleLucky).map fun archive =>
      fault (load sampleDirectory samplePlatform (sampleKey 0) archive freshAccounts)) =
      some none := by
  decide +kernel

end Restore

end Orbis.WalletRestore
