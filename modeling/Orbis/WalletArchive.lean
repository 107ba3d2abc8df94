import Orbis.UndoLog
import Orbis.WalletState

/-!
# Loading the archive of the transfers synchronizer

The archive names the consumers with their block lists and in each of them
the subscriptions with their containers. Loading replaces the live objects
while the archive is read, and an exception plays the log of the old states.
What the archive names depends on the consumers and subscriptions that are
there and not on their states, so the states after a failure can be told from
the named objects and their strings.
-/

set_option autoImplicit false

namespace Orbis.WalletArchive

open FaultState ByteCodec ChainBinary UndoLog WalletState

structure Directory where
  consumers : List (Bytes32 × List Bytes32)
  distinct : (consumers.map Prod.fst).Nodup
  apart : ∀ c ∈ consumers, c.2.Nodup
  size : consumers.length < 2 ^ 64 ∧ ∀ c ∈ consumers, c.2.length < 2 ^ 64

def Directory.find (d : Directory) (viewKey : Bytes32) : Option (List Bytes32) :=
  d.consumers.lookup viewKey

inductive Target where
  | blocks (viewKey : Bytes32)
  | container (viewKey spendKey : Bytes32)
  deriving DecidableEq

def Directory.Has (d : Directory) : Target → Prop
  | .blocks viewKey => ∃ subscriptions, d.find viewKey = some subscriptions
  | .container viewKey spendKey =>
    ∃ subscriptions, d.find viewKey = some subscriptions ∧ spendKey ∈ subscriptions

structure Platform where
  room : ℕ
  room_lt : room < 2 ^ 64
  arrange : TransfersContainer → TransfersContainer
  arrange_same : ∀ c, (arrange c).Same c

namespace Platform

variable (P : Platform)

def Object : Target → Type
  | .blocks _ => KnownBlocks P.room
  | .container _ _ => TransfersContainer

def Same : (x : Target) → P.Object x → P.Object x → Prop
  | .blocks _ => Eq
  | .container _ _ => TransfersContainer.Same

def loadObject : (x : Target) → Bytes → EStateM Fault (P.Object x) Unit
  | .blocks _ => loadBlocks
  | .container _ _ => loadContainer P.arrange

def saveObject : (x : Target) → P.Object x → Bytes
  | .blocks _ => saveBlocks
  | .container _ _ => saveContainer

def decode : (x : Target) → Bytes → Except Fault (P.Object x)
  | .blocks _, blob => decodeBlocks blob
  | .container _ _, blob => P.arrange <$> decodeContainer blob

def format : Format P.Object Fault Bytes := ⟨P.loadObject,P.saveObject⟩

theorem loadContainer_ok (blob : Bytes) (c c' : TransfersContainer) :
    loadContainer P.arrange blob c = .ok () c' ↔ P.arrange <$> decodeContainer blob = .ok c' := by
  unfold loadContainer
  cases decodeContainer blob with
  | ok _ => simp
  | error _ => simp

theorem arrange_decode_save (c : TransfersContainer) :
    P.arrange <$> decodeContainer (saveContainer c) = .ok (P.arrange c) := by
  rw [decodeContainer_save]
  rfl

theorem format_lawful : P.format.Lawful P.Same P.decode where
  load_ok := by
    intro x blob s s'
    cases x with
    | blocks _ => exact loadBlocks_ok blob s s'
    | container _ _ => exact P.loadContainer_ok blob s s'
  restores := by
    intro x s
    cases x with
    | blocks _ => exact ⟨s,decodeBlocks_save P.room_lt s,rfl⟩
    | container _ _ =>
      exact ⟨P.arrange s,P.arrange_decode_save s,P.arrange_same s⟩
  equivalence := by
    intro x
    cases x with
    | blocks _ => exact eq_equivalence
    | container _ _ => exact TransfersContainer.same_equivalence

end Platform

section Load

structure AccountPublicAddress where
  spendPublicKey : Bytes32
  viewPublicKey : Bytes32

def readAddress : Reader AccountPublicAddress := do
  let spendPublicKey ← readBytes32
  let viewPublicKey ← readBytes32
  pure ⟨spendPublicKey,viewPublicKey⟩

def readString : Reader Bytes := serializeContainer readByte

structure Loading (τ : Type) where
  input : Bytes
  objects : τ

variable {α τ : Type} (visit : Target → Bytes → EStateM Fault τ Unit) (d : Directory)

def take (r : Reader α) : EStateM Fault (Loading τ) α := fun s =>
  match r.run s.input with
  | none => .error .reading s
  | some (a, input) => .ok a { s with input }

def visiting (x : Target) (blob : Bytes) : EStateM Fault (Loading τ) Unit :=
  within Loading.objects (fun s objects => { s with objects }) (visit x blob)

def loadSubscription (viewKey : Bytes32) (subscriptions : List Bytes32)
    (acc : AccountPublicAddress) (state : Bytes) : EStateM Fault (Loading τ) Unit :=
  if acc.spendPublicKey ∈ subscriptions then
    visiting visit (.container viewKey acc.spendPublicKey) state
  else pure ()

def loadSubscriptions (viewKey : Bytes32) (subscriptions : List Bytes32) :
    ℕ → EStateM Fault (Loading τ) Unit
  | 0 => pure ()
  | subCount + 1 => do
    let acc ← take readAddress
    let state ← take readString
    loadSubscription visit viewKey subscriptions acc state
    loadSubscriptions viewKey subscriptions subCount

/-- For a consumer that is not there nothing more is read, although its
subscriptions follow in the archive. -/
def loadConsumer (viewKey : Bytes32) (blob : Bytes) :
    Option (List Bytes32) → EStateM Fault (Loading τ) Unit
  | none => pure ()
  | some subscriptions => do
    visiting visit (.blocks viewKey) blob
    let subCount ← take (readVarint 64)
    loadSubscriptions visit viewKey subscriptions subCount

def loadConsumers : ℕ → EStateM Fault (Loading τ) Unit
  | 0 => pure ()
  | subscriptionCount + 1 => do
    let viewKey ← take readBytes32
    let blob ← take readString
    loadConsumer visit viewKey blob (d.find viewKey)
    loadConsumers subscriptionCount

def loadArchive : EStateM Fault (Loading τ) Unit := do
  let subscriptionCount ← take (readVarint 64)
  loadConsumers visit d subscriptionCount

def running (act : EStateM Fault (Loading τ) Unit) (input : Bytes) : EStateM Fault τ Unit :=
  fun objects =>
    match act ⟨input, objects⟩ with
    | .ok _ s => .ok () s.objects
    | .error e s => .error e s.objects

def archiveVersion : UInt32 := 0

/-- `BlockchainSynchronizer::load` and the version. A stream without a whole
hash fails at the latest where the version is read. -/
def loadHeader (genesis : Bytes32) (stream : Bytes) : Except Fault Bytes :=
  match readBytes32.run stream with
  | none => .error .genesisMismatch
  | some (genesisBlockHash, rest) =>
    if genesisBlockHash ≠ genesis then .error .genesisMismatch
    else
      match readUInt32.run rest with
      | none => .error .reading
      | some (version, input) =>
        if archiveVersion < version then .error .versionMismatch else .ok input

def load (P : Platform) (genesis : Bytes32) (stream : Bytes) :
    EStateM Fault (∀ x, P.Object x) Unit := fun accounts =>
  match loadHeader genesis stream with
  | .error e => .error e accounts
  | .ok input => P.format.undoing (running (loadArchive P.format.replace d) input) accounts

def note (x : Target) (blob : Bytes) : EStateM Fault (List (Target × Bytes)) Unit :=
  modify fun calls => calls ++ [(x, blob)]

def named (input : Bytes) : Script Target Fault Bytes where
  calls := left (running (loadArchive note d) input [])
  fault := fault (running (loadArchive note d) input [])

def script (genesis : Bytes32) (stream : Bytes) : Script Target Fault Bytes :=
  match loadHeader genesis stream with
  | .error e => ⟨[], some e⟩
  | .ok input => named d input

end Load

section Naming

variable {P : Platform} {α β : Type} (d : Directory)

def Plays (P : Platform) (a : EStateM Fault (Loading (List (Target × Bytes))) α)
    (b : EStateM Fault (Loading (Logged P.Object Bytes)) α) : Prop :=
  ∀ input calls, ∃ more, (left (a ⟨input,calls⟩)).objects = calls ++ more ∧
    ∀ l, match P.format.replaceAll more l with
      | .error e l' => ∃ rest, b ⟨input,l⟩ = .error e ⟨rest,l'⟩
      | .ok _ l' =>
        match a ⟨input,calls⟩ with
        | .ok x s => b ⟨input,l⟩ = .ok x ⟨s.input,l'⟩
        | .error e _ => ∃ rest, b ⟨input,l⟩ = .error e ⟨rest,l'⟩

theorem replaceAll_append {first second : List (Target × Bytes)} {l : Logged P.Object Bytes} :
    P.format.replaceAll (first ++ second) l =
      (P.format.replaceAll first >>= fun _ => P.format.replaceAll second) l := by
  induction first generalizing l with
  | nil => rfl
  | cons call _ ih =>
    rw [List.cons_append, Format.replaceAll, Format.replaceAll, bind_assoc]
    cases hrun : P.format.replace call.1 call.2 l with
    | ok _ _ => rw [bind_of_ok hrun, bind_of_ok hrun, ih]
    | error _ _ => rw [bind_of_error hrun, bind_of_error hrun]

theorem plays_pure (x : α) : Plays P (pure x) (pure x) := by
  intro inp cls
  exact ⟨[],(List.append_nil cls).symm,fun l => rfl⟩

theorem plays_take (r : Reader α) : Plays P (take r) (take r) := by
  intro inp cls
  refine ⟨[],?_,fun l => ?_⟩
  · rw [List.append_nil]
    unfold take
    cases r.run inp <;> rfl
  · show match (take r ⟨inp,cls⟩ : EStateM.Result _ _ _) with
      | .ok x s => take r ⟨inp,l⟩ = .ok x ⟨s.input,l⟩
      | .error e _ => ∃ rest, take r ⟨inp,l⟩ = .error e ⟨rest,l⟩
    unfold take
    cases r.run inp with
    | none => exact ⟨inp,rfl⟩
    | some _ => rfl

theorem plays_visiting {x : Target} {blob : Bytes} :
    Plays P (visiting note x blob) (visiting P.format.replace x blob) := by
  intro inp cls
  refine ⟨[(x, blob)],rfl,fun l => ?_⟩
  cases hrun : P.format.replace x blob l with
  | ok _ l' =>
    have hall : P.format.replaceAll [(x, blob)] l = .ok () l' := by
      rw [Format.replaceAll, bind_of_ok hrun]
      rfl
    rw [hall]
    exact (within_ok _ _ _ _ _ _).mpr ⟨l',hrun,rfl⟩
  | error e l' =>
    have hall : P.format.replaceAll [(x, blob)] l = .error e l' := bind_of_error hrun
    rw [hall]
    exact ⟨inp,(within_error _ _ _ _ _ _).mpr ⟨l',hrun,rfl⟩⟩

theorem plays_bind {a : EStateM Fault (Loading (List (Target × Bytes))) α}
    {b : EStateM Fault (Loading (Logged P.Object Bytes)) α}
    {f : α → EStateM Fault (Loading (List (Target × Bytes))) β}
    {g : α → EStateM Fault (Loading (Logged P.Object Bytes)) β} (h : Plays P a b)
    (hn : ∀ x, Plays P (f x) (g x)) : Plays P (a >>= f) (b >>= g) := by
  intro inp cls
  obtain ⟨first,hfst,hp⟩ := h inp cls
  cases hrun : a ⟨inp,cls⟩ with
  | error _ _ =>
    rw [hrun] at hfst
    refine ⟨first,?_,fun l => ?_⟩
    · rw [bind_of_error hrun]
      exact hfst
    · have hl := hp l
      rw [hrun] at hl
      rw [bind_of_error hrun]
      cases hall : P.format.replaceAll first l with
      | ok _ _ =>
        rw [hall] at hl
        obtain ⟨rest,hb⟩ := hl
        exact ⟨rest,bind_of_error hb⟩
      | error _ _ =>
        rw [hall] at hl
        obtain ⟨rest,hb⟩ := hl
        exact ⟨rest,bind_of_error hb⟩
  | ok x s =>
    obtain ⟨rest,objects⟩ := s
    rw [hrun] at hfst
    obtain ⟨second,hsnd,hp'⟩ := hn x rest objects
    refine ⟨first ++ second,?_,fun l => ?_⟩
    · rw [bind_of_ok hrun, hsnd, ← List.append_assoc, ← hfst]
      rfl
    · have hl := hp l
      rw [hrun] at hl
      rw [bind_of_ok hrun, replaceAll_append]
      cases hall : P.format.replaceAll first l with
      | error _ _ =>
        rw [hall] at hl
        rw [bind_of_error hall]
        obtain ⟨rest,hb⟩ := hl
        exact ⟨rest,bind_of_error hb⟩
      | ok _ l' =>
        rw [hall] at hl
        rw [bind_of_ok hall, bind_of_ok hl]
        exact hp' l'

theorem plays_loadSubscriptions (vk : Bytes32) (subs : List Bytes32) (cnt : ℕ) :
    Plays P (loadSubscriptions note vk subs cnt)
      (loadSubscriptions P.format.replace vk subs cnt) := by
  induction cnt with
  | zero => exact plays_pure ()
  | succ _ ih =>
    apply plays_bind (plays_take _)
    intro acc
    apply plays_bind (plays_take _)
    intro state
    refine plays_bind ?_ fun _ => ih
    unfold loadSubscription
    by_cases h : acc.spendPublicKey ∈ subs
    · rw [if_pos h, if_pos h]
      exact plays_visiting
    · rw [if_neg h, if_neg h]
      exact plays_pure ()

theorem plays_loadConsumers (cnt : ℕ) :
    Plays P (loadConsumers note d cnt) (loadConsumers P.format.replace d cnt) := by
  induction cnt with
  | zero => exact plays_pure ()
  | succ _ ih =>
    apply plays_bind (plays_take _)
    intro vk
    apply plays_bind (plays_take _)
    intro blob
    refine plays_bind ?_ fun _ => ih
    cases d.find vk with
    | none => exact plays_pure ()
    | some subs =>
      apply plays_bind plays_visiting
      intro _
      exact plays_bind (plays_take _) (plays_loadSubscriptions vk subs)

theorem plays_loadArchive : Plays P (loadArchive note d) (loadArchive P.format.replace d) :=
  plays_bind (plays_take _) (plays_loadConsumers d)

theorem running_loadArchive {inp : Bytes} {l : Logged P.Object Bytes} :
    running (loadArchive P.format.replace d) inp l = (named d inp).play P.format l := by
  obtain ⟨cls,hc,hp⟩ := plays_loadArchive (P := P) d inp []
  have hl := hp l
  have hnm : (named d inp).calls = cls := by
    rw [← List.nil_append cls, ← hc]
    unfold named running
    cases loadArchive note d ⟨inp,[]⟩ <;> rfl
  unfold Script.play
  rw [hnm]
  cases hall : P.format.replaceAll cls l with
  | error _ _ =>
    rw [hall] at hl
    obtain ⟨rest,hb⟩ := hl
    rw [bind_of_error hall, running, hb]
  | ok _ _ =>
    rw [hall] at hl
    rw [bind_of_ok hall, running]
    cases hrun : loadArchive note d ⟨inp,[]⟩ with
    | ok _ _ =>
      rw [hrun] at hl
      have hflt : (named d inp).fault = none := by
        unfold named running
        rw [hrun]
        rfl
      rw [hl, hflt]
      rfl
    | error e _ =>
      rw [hrun] at hl
      obtain ⟨rest,hb⟩ := hl
      have hflt : (named d inp).fault = some e := by
        unfold named running
        rw [hrun]
        rfl
      rw [hb, hflt]
      rfl

theorem load_eq {gen : Bytes32} {stream : Bytes} :
    load d P gen stream = P.format.undoing ((script d gen stream).play P.format) := by
  funext accs
  unfold load script
  cases loadHeader gen stream with
  | error _ => rfl
  | ok _ =>
    dsimp only
    rw [Format.undoing, Format.undoing, running_loadArchive]

end Naming

section Failures

variable {P : Platform}

def Platform.Spares (P : Platform) : (x : Target) → P.Object x → Bytes → Prop
  | .blocks _, blocks, blob => Repeats blocks.items P.room blob
  | .container _ _, _, _ => True

/-- What the strings of an archive that is refused say of an object: what it
got before its last naming is the old state, and a string at which the load
stops on its first naming spares it. -/
structure Platform.Spared (P : Platform) (accounts : ∀ x, P.Object x)
    (calls : List (Target × Bytes)) (x : Target) : Prop where
  first : valuesOf x (accepted P.decode calls) = [] → ∀ blob,
    refused P.decode calls = some (x, blob) → P.Spares x (accounts x) blob
  again : ∀ s, (valuesOf x (accepted P.decode calls)).dropLast.getLast? = some s →
    P.Same x s (accounts x)

theorem loadObject_refused {x : Target} {blob : Bytes} {e : Fault}
    (h : P.decode x blob = .error e) (s : P.Object x) :
    P.Same x (left (P.loadObject x blob s)) s ↔ P.Spares x s blob := by
  cases x with
  | blocks _ => exact loadBlocks_refused s h
  | container _ _ =>
    refine iff_of_true ?_ trivial
    have hdecode : ∃ e, decodeContainer blob = .error e := by
      cases hd : decodeContainer blob with
      | error e => exact ⟨e,rfl⟩
      | ok c =>
        simp only [Platform.decode, hd] at h
        cases h
    obtain ⟨_,hd⟩ := hdecode
    have hleft : left (loadContainer P.arrange blob s) = s := by
      unfold loadContainer
      rw [hd]
      rfl
    show TransfersContainer.Same (left (loadContainer P.arrange blob s)) s
    rw [hleft]
    exact TransfersContainer.same_equivalence.refl s

theorem restorable_iff {accounts : ∀ x, P.Object x} {calls : List (Target × Bytes)} {x : Target} :
    P.format.Restorable P.Same P.decode accounts calls x ↔ P.Spared accounts calls x := by
  have hfirst : ∀ blob, refused P.decode calls = some (x, blob) →
      (P.Same x (left (P.format.load x blob (accounts x))) (accounts x) ↔
        P.Spares x (accounts x) blob) := by
    intro blob hrefused
    obtain ⟨_,he⟩ := refused_error hrefused
    exact loadObject_refused he (accounts x)
  constructor
  · rintro ⟨first,again⟩
    exact ⟨fun hnil blob hb => (hfirst blob hb).mp (first hnil blob hb),again⟩
  · rintro ⟨first,again⟩
    exact ⟨fun hnil blob hb => (hfirst blob hb).mpr (first hnil blob hb),again⟩

/-- A load that throws leaves all block lists and containers the same just if
each of them was the same before it was replaced for the last time, and a
string that was refused at the first naming of a block list repeats its first
bytes, or is refused before the list is touched. -/
theorem failed_load_unchanged_iff (d : Directory) (genesis : Bytes32) (stream : Bytes)
    (accounts : ∀ x, P.Object x) :
    (∀ e accounts', load d P genesis stream accounts = .error e accounts' →
      ∀ x, d.Has x → P.Same x (accounts' x) (accounts x)) ↔
    ((script d genesis stream).Stops P.decode → ∀ x, d.Has x →
      P.Spared accounts (script d genesis stream).calls x) := by
  rw [load_eq]
  by_cases hs : (script d genesis stream).Stops P.decode
  · obtain ⟨e,accounts',hrun,hsa⟩ := undoing_error P.format_lawful hs accounts
    rw [imp_iff_right hs]
    constructor
    · intro h x hx
      exact restorable_iff.mp ((hsa x).mp (h e accounts' hrun x hx))
    · intro h e' accounts'' hrun' x hx
      rw [hrun] at hrun'
      cases hrun'
      exact (hsa x).mpr (restorable_iff.mpr (h x hx))
  · have hrun := undoing_ok P.format_lawful hs accounts
    refine iff_of_true (fun e accounts' hrun' => ?_) (fun h => absurd h hs)
    rw [hrun] at hrun'
    cases hrun'

def sampleKey (byte : UInt8) : Bytes32 := ⟨List.replicate 32 byte,List.length_replicate⟩

def samplePlatform : Platform where
  room := 1000
  room_lt := by norm_num
  arrange := id
  arrange_same := TransfersContainer.same_equivalence.refl

def sampleDirectory : Directory where
  consumers := [(sampleKey 1, [sampleKey 2])]
  distinct := by decide
  apart := by decide
  size := by decide

def emptyContainer : TransfersContainer where
  currentHeight := 0
  transactions := ⟨⟨[],by norm_num⟩,.nil⟩
  unconfirmedTransfers := ⟨[],by norm_num⟩
  availableTransfers := ⟨[],by norm_num⟩
  spentTransfers := ⟨⟨[],by norm_num⟩,.nil⟩

def freshAccounts : ∀ x, samplePlatform.Object x
  | .blocks _ => ⟨[sampleKey 0],by decide⟩
  | .container _ _ => emptyContainer

def truncatedArchive : Bytes :=
  (sampleKey 0).bytes ++ [0, 1] ++ (sampleKey 1).bytes ++ [33, 2] ++ (sampleKey 9).bytes

/-- The load throws, and the consumer is left with two other blocks. -/
theorem truncated_blocks_kept :
    ∃ e accounts', load sampleDirectory samplePlatform (sampleKey 0) truncatedArchive
        freshAccounts = .error e accounts' ∧ sampleDirectory.Has (.blocks (sampleKey 1)) ∧
      ¬ samplePlatform.Same (.blocks (sampleKey 1)) (accounts' (.blocks (sampleKey 1)))
        (freshAccounts (.blocks (sampleKey 1))) := by
  have hrun : fault (load sampleDirectory samplePlatform (sampleKey 0) truncatedArchive
      freshAccounts) = some .reading := by decide +kernel
  refine ⟨_,_,eq_error_of_fault hrun,⟨[sampleKey 2],by decide⟩,?_⟩
  intro hs
  have hits := congrArg KnownBlocks.items hs
  revert hits
  decide +kernel

end Failures

end Orbis.WalletArchive
