import Orbis.PeerHeights

/-!
# Chain entries and requested blocks

A chain entry tells which heights a peer's block ids have, and the connection
fetches the blocks the node does not know. The numbers come from the peer, and
the comparison that rejects a wrong entry is one off and does not end the
handling. Nor does a handler ask whether an entry was requested: blocks named
outside of a synchronisation stay in the lists when the next one begins.
-/

set_option autoImplicit false

namespace Orbis.PeerEntries

open ChainTypes ChainBinary PeerHandler PeerHeights

section Numbers

def fetched (c : ConnectionContext) : ConnectionContext :=
  { c with neededObjects := [], requestedObjects := ∅ }

/-- The last id known from the peer is below the peer's height, and once all
blocks have arrived the final condition of `request_missing_objects` holds. -/
structure HeightsAgree (c : ConnectionContext) : Prop where
  below : c.lastResponseHeight.toNat + 1 ≤ c.remoteBlockchainHeight.toNat
  final : ∀ core h checkHavingBlocks,
    (requestMissingObjects core h (fetched c) checkHavingBlocks).result = true

theorem requestMissingObjects_result (core : Core) (h : Handler) (c : ConnectionContext)
    (chb : Bool) : (requestMissingObjects core h c chb).result = true ↔
      c.neededObjects ≠ [] ∨ c.lastResponseHeight < c.remoteBlockchainHeight - 1 ∨
        c.lastResponseHeight = c.remoteBlockchainHeight - 1 ∧ c.requestedObjects = ∅ := by
  unfold requestMissingObjects
  split_ifs with hn hbef hf
  · exact iff_of_true rfl (.inl hn)
  · exact iff_of_true rfl (.inr (.inl hbef))
  · exact iff_of_true rfl (.inr (.inr hf))
  · simp only [false_iff]
    rintro (h | h | h)
    · exact hn h
    · exact hbef h
    · exact hf h

theorem heightsAgree_iff (c : ConnectionContext) :
    HeightsAgree c ↔ c.lastResponseHeight < c.remoteBlockchainHeight := by
  constructor
  · intro ha
    exact UInt32.lt_iff_toNat_lt.mpr ha.below
  · intro hl
    have hnat := UInt32.lt_iff_toNat_lt.mp hl
    have hone : (1 : UInt32) ≤ c.remoteBlockchainHeight := by
      apply UInt32.le_iff_toNat_le.mpr
      change 1 ≤ _
      omega
    have hp := UInt32.toNat_sub_of_le _ _ hone
    refine ⟨hnat,?_⟩
    intro core h chb
    apply (requestMissingObjects_result core h (fetched c) chb).mpr
    by_cases hbef : c.lastResponseHeight < c.remoteBlockchainHeight - 1
    · exact .inr (.inl hbef)
    · refine .inr (.inr ⟨?_,rfl⟩)
      apply UInt32.toNat_inj.mp
      have hge := UInt32.le_iff_toNat_le.mp (not_lt.mp hbef)
      change c.lastResponseHeight.toNat = (c.remoteBlockchainHeight - 1).toNat
      rw [hp] at hge ⊢
      change _ - 1 ≤ _ at hge
      change _ = _ - 1
      omega

variable (core : Core) (h : Handler) (startHeight totalHeight : UInt32) (blockIds : List Hash)
  (c : ConnectionContext)

def lastHeight : UInt32 := startHeight + UInt32.ofNat blockIds.length - 1

theorem recordChainEntry_eq :
    recordChainEntry core startHeight totalHeight blockIds c =
      { c with
        remoteBlockchainHeight := totalHeight
        lastResponseHeight := lastHeight startHeight blockIds
        state := if totalHeight < lastHeight startHeight blockIds then .shutdown else c.state
        neededObjects := c.neededObjects ++ blockIds.filter fun id => !core.haveBlock id } := by
  by_cases hw : totalHeight < startHeight + UInt32.ofNat blockIds.length - 1
  · simp [recordChainEntry, lastHeight, hw, ConnectionContext.drop]
  · simp [recordChainEntry, lastHeight, hw]

theorem requestMissingObjects_state (chb : Bool) :
    (requestMissingObjects core h c chb).context.state =
      if c.neededObjects = [] ∧ c.lastResponseHeight = c.remoteBlockchainHeight - 1 ∧
        c.requestedObjects = ∅ then .normal else c.state := by
  unfold requestMissingObjects
  by_cases hn : c.neededObjects = []
  · rw [if_neg (not_not.mpr hn)]
    by_cases hbef : c.lastResponseHeight < c.remoteBlockchainHeight - 1
    · rw [if_pos hbef, if_neg fun h => absurd h.2.1 (ne_of_lt hbef)]
    · rw [if_neg hbef]
      by_cases hf : c.lastResponseHeight = c.remoteBlockchainHeight - 1 ∧ c.requestedObjects = ∅
      · rw [if_pos hf, if_pos ⟨hn,hf⟩]
      · rw [if_neg hf, if_neg fun h => hf h.2]
  · rw [if_pos hn, if_neg fun h => hn h.1]

theorem requestMissingObjects_heights (chb : Bool) :
    (requestMissingObjects core h c chb).context.lastResponseHeight = c.lastResponseHeight ∧
      (requestMissingObjects core h c chb).context.remoteBlockchainHeight =
        c.remoteBlockchainHeight := by
  unfold requestMissingObjects
  split_ifs <;> exact ⟨rfl,rfl⟩

end Numbers

section Entry

variable (core : Core) (h : Handler) (startHeight totalHeight : UInt32) (blockIds : List Hash)
  (c : ConnectionContext)

def Taken : Prop := ∃ id ids, blockIds = id :: ids ∧ core.haveBlock id = true

/-- The entry ends below the peer's height, or it ends above and the
connection stays closed. It does not when the height is zero, the entry ends
at the greatest number and there is nothing to fetch: this looks like a
finished synchronisation. -/
def EntryFits : Prop :=
  Taken core blockIds →
    lastHeight startHeight blockIds < totalHeight ∨
      lastHeight startHeight blockIds = totalHeight ∧ c.state = .shutdown ∨
      totalHeight < lastHeight startHeight blockIds ∧
        ¬(totalHeight = 0 ∧ lastHeight startHeight blockIds + 1 = 0 ∧ c.requestedObjects = ∅ ∧
          c.neededObjects = [] ∧ ∀ id ∈ blockIds, core.haveBlock id = true)

theorem before_zero {a b : UInt32} (hl : a < b) : b = a - 1 ↔ a = 0 ∧ b + 1 = 0 := by
  constructor
  · intro heq
    have hs : b + 1 = a := by rw [heq, UInt32.sub_add_cancel]
    have hz : a = 0 := by
      by_contra hne
      have hpos : (1 : UInt32) ≤ a := by
        apply UInt32.le_iff_toNat_le.mpr
        change 1 ≤ a.toNat
        have hnat : a.toNat ≠ 0 := fun h => hne (UInt32.toNat_inj.mp h)
        omega
      have hp := UInt32.toNat_sub_of_le _ _ hpos
      rw [← heq] at hp
      have hnat := UInt32.lt_iff_toNat_lt.mp hl
      omega
    exact ⟨hz,hs.trans hz⟩
  · rintro ⟨rfl,hb⟩
    rw [← hb, UInt32.add_sub_cancel]

theorem handleResponseChainEntry_refused (hnot : ¬ Taken core blockIds) :
    (handleResponseChainEntry core h startHeight totalHeight blockIds c).context.state =
      .shutdown := by
  cases blockIds with
  | nil => rfl
  | cons id ids =>
    have hunk : core.haveBlock id = false := by
      by_contra hkn
      exact hnot ⟨id,ids,rfl,Bool.not_eq_false _ ▸ hkn⟩
    simp only [handleResponseChainEntry, hunk]
    rfl

theorem handleResponseChainEntry_taken (htkn : Taken core blockIds) :
    (handleResponseChainEntry core h startHeight totalHeight blockIds c).context =
      (requestMissingObjects core h (recordChainEntry core startHeight totalHeight blockIds c)
        false).context := by
  obtain ⟨_,_,rfl,hkn⟩ := htkn
  simp only [handleResponseChainEntry, hkn]
  rfl

theorem handleResponseChainEntry_state (htkn : Taken core blockIds) :
    (handleResponseChainEntry core h startHeight totalHeight blockIds c).context.state =
      if c.neededObjects ++ (blockIds.filter fun id => !core.haveBlock id) = [] ∧
        lastHeight startHeight blockIds = totalHeight - 1 ∧ c.requestedObjects = ∅ then .normal
      else if totalHeight < lastHeight startHeight blockIds then .shutdown else c.state := by
  rw [handleResponseChainEntry_taken core h startHeight totalHeight blockIds c htkn,
    requestMissingObjects_state, recordChainEntry_eq]

theorem handleResponseChainEntry_agrees (htkn : Taken core blockIds) :
    HeightsAgree (handleResponseChainEntry core h startHeight totalHeight blockIds c).context ↔
      lastHeight startHeight blockIds < totalHeight := by
  rw [heightsAgree_iff,
    handleResponseChainEntry_taken core h startHeight totalHeight blockIds c htkn]
  obtain ⟨hl,hrmt⟩ := requestMissingObjects_heights core h
    (recordChainEntry core startHeight totalHeight blockIds c) false
  rw [hl, hrmt, recordChainEntry_eq]

theorem revived_iff (hgt : totalHeight < lastHeight startHeight blockIds) :
    (c.neededObjects ++ (blockIds.filter fun id => !core.haveBlock id) = [] ∧
        lastHeight startHeight blockIds = totalHeight - 1 ∧ c.requestedObjects = ∅) ↔
      totalHeight = 0 ∧ lastHeight startHeight blockIds + 1 = 0 ∧ c.requestedObjects = ∅ ∧
        c.neededObjects = [] ∧ ∀ id ∈ blockIds, core.haveBlock id = true := by
  rw [before_zero hgt, List.append_eq_nil_iff, List.filter_eq_nil_iff]
  simp only [Bool.not_eq_eq_eq_not, Bool.not_true, Bool.not_eq_false]
  tauto

/-- The heights after a chain entry agree, unless the connection is to be
closed, exactly when the entry fits. -/
theorem chainEntry_heights_iff :
    ((handleResponseChainEntry core h startHeight totalHeight blockIds c).context.state ≠
        .shutdown →
      HeightsAgree (handleResponseChainEntry core h startHeight totalHeight blockIds c).context) ↔
      EntryFits core startHeight totalHeight blockIds c := by
  by_cases htkn : Taken core blockIds
  · rw [handleResponseChainEntry_agrees core h startHeight totalHeight blockIds c htkn,
      handleResponseChainEntry_state core h startHeight totalHeight blockIds c htkn, EntryFits,
      imp_iff_right htkn]
    rcases lt_trichotomy (lastHeight startHeight blockIds) totalHeight with hl | heq | hgt
    · exact iff_of_true (fun _ => hl) (.inl hl)
    · -- an entry that ends at the height itself is neither rejected nor finished
      have hnot : lastHeight startHeight blockIds ≠ totalHeight - 1 := by
        rw [heq]
        intro hp
        have hs := congrArg (· + 1) hp
        simp at hs
      have hi : ∀ {a b : UInt32}, a = b → ¬ a < b := fun h => h ▸ lt_irrefl _
      rw [if_neg fun h => hnot h.2.1, if_neg (hi heq.symm)]
      constructor
      · intro hl
        exact .inr (.inl ⟨heq,by_contra fun ho => hi heq (hl ho)⟩)
      · rintro (hl | ⟨-,hsta⟩ | ⟨hl,-⟩) ho
        · exact hl
        · exact absurd hsta ho
        · exact absurd hl (hi heq.symm)
    · by_cases hr : totalHeight = 0 ∧ lastHeight startHeight blockIds + 1 = 0 ∧
          c.requestedObjects = ∅ ∧ c.neededObjects = [] ∧ ∀ id ∈ blockIds, core.haveBlock id = true
      · rw [if_pos ((revived_iff core startHeight totalHeight blockIds c hgt).mpr hr)]
        constructor
        · intro hl
          exact .inl (hl (by decide))
        · rintro (hl | ⟨heq,-⟩ | ⟨-,hnot⟩) _
          · exact hl
          · exact absurd heq hgt.ne'
          · exact absurd hr hnot
      · rw [if_neg (mt (revived_iff core startHeight totalHeight blockIds c hgt).mp hr), if_pos hgt]
        exact iff_of_true (fun ho => absurd rfl ho) (.inr (.inr ⟨hgt,hr⟩))
  · apply iff_of_true
    · intro ho
      exact absurd (handleResponseChainEntry_refused core h startHeight totalHeight blockIds c
        htkn) ho
    · intro h
      exact absurd h htkn

def sampleEntry (startHeight totalHeight : UInt32) : ConnectionContext :=
  (handleResponseChainEntry sampleCore Handler.initial startHeight totalHeight [1]
    { ConnectionContext.opened 1 true with state := .synchronizing }).context

/-- An entry that ends at the height itself leaves the connection open, one
that ends at the greatest number is detected and then ends the
synchronisation. -/
theorem chainEntry_heights_wrong :
    ((sampleEntry 5 5).state = .synchronizing ∧ ¬ HeightsAgree (sampleEntry 5 5)) ∧
      (sampleEntry 4294967295 0).state = .normal ∧ ¬ HeightsAgree (sampleEntry 4294967295 0) := by
  rw [heightsAgree_iff, heightsAgree_iff]
  decide +kernel

end Entry

section Lists

def Quiet (c : ConnectionContext) : Prop :=
  c.neededObjects ≠ [] ∨ c.requestedObjects ≠ ∅ →
    c.state = .synchronizing ∨ c.state = .shutdown

theorem quiet_of_empty {c : ConnectionContext} (hn : c.neededObjects = [])
    (hreq : c.requestedObjects = ∅) : Quiet c := by
  rintro (h | h)
  · exact absurd hn h
  · exact absurd hreq h

theorem quiet_drop (c : ConnectionContext) : Quiet c.drop := fun _ => .inr rfl

theorem Quiet.empty {c : ConnectionContext} (hq : Quiet c) (hsta : c.state ≠ .synchronizing)
    (ho : c.state ≠ .shutdown) : c.neededObjects = [] ∧ c.requestedObjects = ∅ := by
  by_contra hnot
  have hlsd : c.neededObjects ≠ [] ∨ c.requestedObjects ≠ ∅ := by
    by_contra hn
    rw [not_or, not_not, not_not] at hn
    exact hnot hn
  rcases hq hlsd with h | h
  · exact hsta h
  · exact ho h

variable (getBlockHash : Block → Hash) (core : Core) (h : Handler) {c : ConnectionContext}

theorem requestMissingObjects_quiet (hq : Quiet c) (chb : Bool) :
    Quiet (requestMissingObjects core h c chb).context := by
  unfold requestMissingObjects
  split_ifs with hn hbef hf
  · exact fun _ => hq (.inl hn)
  · exact hq
  · exact quiet_of_empty (not_not.mp hn) hf.2
  · exact hq

theorem recordChainEntry_quiet (hq : Quiet c) (sh th : UInt32) (blockIds : List Hash)
    (hsol : (∃ id ∈ blockIds, core.haveBlock id = false) → c.state = .synchronizing) :
    Quiet (recordChainEntry core sh th blockIds c) := by
  rw [recordChainEntry_eq]
  intro hlsd
  by_cases hw : th < lastHeight sh blockIds
  · exact .inr (if_pos hw)
  · change (if _ then _ else _) = _ ∨ (if _ then _ else _) = _
    rw [if_neg hw]
    by_cases hunk : ∃ id ∈ blockIds, core.haveBlock id = false
    · exact .inl (hsol hunk)
    · apply hq
      rcases hlsd with hn | hreq
      · left
        intro hnil
        apply hn
        change c.neededObjects ++ _ = []
        rw [hnil, List.nil_append, List.filter_eq_nil_iff]
        intro id hid hnot
        exact hunk ⟨id,hid,by simpa using hnot⟩
      · exact .inr hreq

theorem receiveBlocks_quiet (cnt : ℕ) (es : List BlockCompleteEntry) (hq : Quiet c) :
    Quiet (receiveBlocks getBlockHash core cnt es c).2 := by
  induction es generalizing cnt c with
  | nil => exact hq
  | cons e _ ih =>
    rw [receiveBlocks]
    cases fromBinaryArray readBlock e.block with
    | none => exact quiet_drop c
    | some _ =>
      dsimp only
      split_ifs with hsnd hreq hcnt
      · exact quiet_of_empty rfl rfl
      · exact quiet_drop c
      · apply ih
        rintro (hn | hreq)
        · exact hq (.inl hn)
        · apply hq
          right
          intro hno
          apply hreq
          change c.requestedObjects.erase _ = ∅
          rw [hno, Finset.erase_empty]
      · exact quiet_drop c

theorem processPayloadSyncData_quiet (hq : Quiet c) (ho : c.state ≠ .shutdown) (pl : CoreSyncData)
    (ini : Bool) : Quiet (processPayloadSyncData core h pl c ini).2 := by
  by_cases hs : c.state = .synchronizing
  · have hk : (processPayloadSyncData core h pl c ini).2.state = .synchronizing := by
      unfold processPayloadSyncData
      split_ifs <;> exact hs
    exact fun _ => .inl hk
  · obtain ⟨hn,hreq⟩ := hq.empty hs ho
    unfold processPayloadSyncData
    split_ifs <;> exact quiet_of_empty hn hreq

theorem handleNotifyNewBlock_quiet (hq : Quiet c) (e : BlockCompleteEntry) (ch : UInt32) :
    Quiet (handleNotifyNewBlock core h e ch c).context := by
  unfold handleNotifyNewBlock
  dsimp only
  split_ifs <;> first | exact hq | exact quiet_drop _ | exact fun _ => .inl rfl

theorem handleResponseGetObjects_quiet (hq : Quiet c) (ch : UInt32) (bs : List BlockCompleteEntry) :
    Quiet (handleResponseGetObjects getBlockHash core h ch bs c).context := by
  unfold handleResponseGetObjects
  split_ifs with hl
  · exact quiet_drop c
  · have hrec := receiveBlocks_quiet getBlockHash core 0 bs
      (show Quiet (report core h c ch).2 from hq)
    dsimp only
    cases hall : receiveBlocks getBlockHash core 0 bs (report core h c ch).2 with
    | mk all c' =>
      rw [hall] at hrec
      cases all with
      | false => exact hrec
      | true =>
        dsimp only
        split_ifs <;> first | exact hrec | exact quiet_drop c'

def Solicited (core : Core) (c : ConnectionContext) : Command → Prop
  | .responseChainEntry _ _ blockIds =>
    Taken core blockIds → (∃ id ∈ blockIds, core.haveBlock id = false) → c.state = .synchronizing
  | _ => True

theorem handleResponseChainEntry_quiet (hq : Quiet c) (sh th : UInt32) (blockIds : List Hash)
    (hsol : Taken core blockIds → (∃ id ∈ blockIds, core.haveBlock id = false) →
      c.state = .synchronizing) :
    Quiet (handleResponseChainEntry core h sh th blockIds c).context := by
  by_cases htkn : Taken core blockIds
  · rw [handleResponseChainEntry_taken core h sh th blockIds c htkn]
    apply requestMissingObjects_quiet
    exact recordChainEntry_quiet core hq sh th blockIds (hsol htkn)
  · exact fun _ => .inr (handleResponseChainEntry_refused core h sh th blockIds c htkn)

theorem handleCommand_quiet (hq : Quiet c) (ho : c.state ≠ .shutdown) {cmd : Command}
    (hsol : Solicited core c cmd) : Quiet (handleCommand getBlockHash core h c cmd).context := by
  cases cmd with
  | handshake ver _ _ pl =>
    simp only [handleCommand, handleHandshake]
    have hver : Quiet { c with version := ver } := hq
    have htkn := processPayloadSyncData_quiet core h hver ho pl true
    split_ifs <;> first | exact htkn | exact quiet_drop _
  | timedSync pl => exact processPayloadSyncData_quiet core h hq ho pl false
  | timedSyncResponse _ pl =>
    simp only [handleCommand]
    split_ifs
    · exact quiet_drop c
    · exact processPayloadSyncData_quiet core h hq ho pl false
  | newBlock e ch =>
    exact handleNotifyNewBlock_quiet core h hq e ch
  | requestGetObjects =>
    simp only [handleCommand, handleRequestGetObjects]
    split_ifs
    · exact hq
    · exact quiet_drop c
  | responseGetObjects ch bs =>
    exact handleResponseGetObjects_quiet getBlockHash core h hq ch bs
  | requestChain blockIds =>
    simp only [handleCommand, handleRequestChain]
    cases blockIds.getLast? with
    | none => exact quiet_drop c
    | some _ =>
      dsimp only
      split_ifs
      · exact quiet_drop c
      · exact hq
  | responseChainEntry sh th blockIds =>
    exact handleResponseChainEntry_quiet core h hq sh th blockIds hsol
  | other => exact hq

theorem processObjects_quiet (hq : Quiet c) (bs : List BlockCompleteEntry) :
    Quiet (processObjects core h bs c).context := by
  cases bs with
  | nil =>
    simp only [processObjects]
    split_ifs
    · exact requestMissingObjects_quiet core h hq true
    · exact hq
  | cons _ _ =>
    simp only [processObjects]
    split_ifs
    · exact hq
    · exact quiet_drop c
    · exact quiet_drop c
    · exact quiet_drop c
    · exact quiet_of_empty rfl rfl
    · exact hq

end Lists

section Starts

variable (getBlockHash : Block → Hash) {c : ConnectionContext} {h : Handler} (core : Core)

def startsSync (h : Handler) : Event → Option ConnectionContext
  | .settle _ id =>
    match h.find id with
    | some ⟨c,.settling⟩ =>
      if c.state = .syncRequired then some { c with state := .synchronizing } else none
    | _ => none
  | _ => none

def EventSolicited (h : Handler) : Event → Prop
  | .command core id command =>
    ∀ c, h.find id = some ⟨c,.reading⟩ → Solicited core c command
  | _ => True

def SolicitedRun : Handler → List Event → Prop
  | _, [] => True
  | h, e :: es => EventSolicited h e ∧ SolicitedRun (step getBlockHash h e) es

structure Calm (h : Handler) : Prop where
  connections : ∀ c ∈ h.connections, Quiet c.context
  pending : ∀ c ∈ h.pending, Quiet c
  reading : ∀ c ∈ h.connections, c.task = .reading → c.context.state ≠ .shutdown

theorem handleCommand_task (h : Handler) (c : ConnectionContext) (cmd : Command) :
    (handleCommand getBlockHash core h c cmd).task ≠ .reading := by
  cases cmd with
  | handshake _ _ _ _ =>
    simp only [handleCommand, handleHandshake]
    split_ifs <;> simp [Outcome.done]
  | timedSync _ => simp [handleCommand, Outcome.done]
  | timedSyncResponse _ _ =>
    simp only [handleCommand]
    split_ifs <;> simp [Outcome.done]
  | newBlock _ _ =>
    simp only [handleCommand, handleNotifyNewBlock]
    split_ifs <;> simp [Outcome.done]
  | requestGetObjects => simp [handleCommand, handleRequestGetObjects, Outcome.done]
  | responseGetObjects _ _ =>
    simp only [handleCommand, handleResponseGetObjects]
    split_ifs
    · simp [Outcome.done]
    · split
      · simp [Outcome.done]
      · split_ifs <;> simp [Outcome.done]
  | requestChain blockIds =>
    simp only [handleCommand, handleRequestChain]
    cases blockIds.getLast? <;> simp [Outcome.done]
  | responseChainEntry _ _ blockIds =>
    simp only [handleCommand, handleResponseChainEntry]
    cases blockIds with
    | nil => simp [Outcome.done]
    | cons _ _ =>
      dsimp only
      split_ifs <;> simp [Outcome.done, Missing.outcome]
  | other => simp [handleCommand, Outcome.done]

theorem processObjects_task (h : Handler) (c : ConnectionContext)
    (bs : List BlockCompleteEntry) : (processObjects core h bs c).task ≠ .reading := by
  cases bs with
  | nil =>
    simp only [processObjects]
    split_ifs <;> simp [Outcome.done, Missing.outcome]
  | cons _ _ =>
    simp only [processObjects]
    split_ifs <;> simp [Outcome.done]

theorem settle_quiet (h : Handler) (hq : Quiet c) : Quiet (settle core h c).context ∧
      ((settle core h c).task = .reading → (settle core h c).context.state ≠ .shutdown) := by
  cases hsta : c.state with
  | shutdown =>
    simp only [settle, hsta]
    exact ⟨hq,by simp⟩
  | syncRequired =>
    simp only [settle, hsta]
    exact ⟨fun _ => .inl rfl,by simp⟩
  | poolSyncRequired =>
    obtain ⟨hn,hreq⟩ := hq.empty (by simp [hsta]) (by simp [hsta])
    simp only [settle, hsta]
    exact ⟨quiet_of_empty hn hreq,by simp⟩
  | _ =>
    simp only [settle, hsta]
    exact ⟨hq,fun _ => by simp⟩

theorem calm_store {o : Outcome} {id : ConnectionId} (hc : Calm h) (hfrs : o.Frames h c)
    (hq : Quiet o.context) (hr : o.task = .reading → o.context.state ≠ .shutdown) :
    Calm (o.store id) := by
  have hmem : ∀ d ∈ (o.store id).connections, d = ⟨o.context,o.task⟩ ∨ d ∈ h.connections := by
    intro d hd
    obtain ⟨d,hmem,rfl⟩ := List.mem_map.mp hd
    rw [hfrs.connections] at hmem
    by_cases hid : d.context.connectionId = id
    · rw [if_pos hid]
      exact .inl rfl
    · rw [if_neg hid]
      exact .inr hmem
  constructor
  · intro d hd
    rcases hmem d hd with rfl | hd
    · exact hq
    · exact hc.connections d hd
  · intro d hd
    change d ∈ o.handler.pending at hd
    rw [hfrs.pending] at hd
    exact hc.pending d hd
  · intro d hd
    rcases hmem d hd with rfl | hd
    · exact hr
    · exact hc.reading d hd

theorem calm_enter (hc : Calm h) (hq : Quiet c) : Calm (h.enter c) := by
  constructor
  · intro d hd
    rcases List.mem_append.mp hd with hd | hd
    · exact hc.connections d hd
    · rw [List.mem_singleton.mp hd]
      exact hq
  · exact hc.pending
  · intro d hd ht
    rcases List.mem_append.mp hd with hd | hd
    · exact hc.reading d hd ht
    · rw [List.mem_singleton.mp hd] at ht
      cases ht

theorem calm_forget (hca : Calm h) (id : ConnectionId) : Calm (h.forget id) :=
  ⟨hca.connections,fun c hc => hca.pending c (List.mem_of_mem_filter hc),hca.reading⟩

theorem quiet_opened (id : ConnectionId) (isIncome : Bool) : Quiet (.opened id isIncome) :=
  quiet_of_empty rfl rfl

theorem calm_connect {h h' : Handler} (hc : Calm h) (hco : h'.connections = h.connections)
    (hp : h'.pending = h.pending)
    (hq : Quiet c) : Calm { h' with pending := h'.pending ++ [c] } := by
  constructor
  · exact hco ▸ hc.connections
  · intro d hd
    rcases List.mem_append.mp hd with hd | hd
    · exact hc.pending d (hp ▸ hd)
    · rw [List.mem_singleton.mp hd]
      exact hq
  · exact hco ▸ hc.reading

theorem step_calm (hc : Calm h) {e : Event} (hsol : EventSolicited h e) :
    Calm (step getBlockHash h e) := by
  cases e with
  | accept id =>
    rw [step]
    split_ifs
    · exact hc
    · exact calm_enter hc (quiet_opened id true)
  | connect core id ver _ pl =>
    rw [step]
    split_ifs
    · exact hc
    · have ho : Quiet { ConnectionContext.opened id false with version := ver } :=
        quiet_of_empty rfl rfl
      have hsta : ConnectionState.beforeHandshake ≠ .shutdown := by decide
      have hq := processPayloadSyncData_quiet core h ho hsta pl true
      obtain ⟨⟨hco,hp,-⟩,-,-⟩ := processPayloadSyncData_heard core h
        { ConnectionContext.opened id false with version := ver } pl true fun _ => rfl
      exact calm_connect hc hco hp hq
  | register id =>
    rw [step]
    cases hw : h.waiting id with
    | none => exact hc
    | some c => exact calm_enter (calm_forget hc id) (hc.pending c (waiting_some hw))
  | abandon id => exact calm_forget hc id
  | command core _ cmd =>
    rw [step]
    split
    · rename_i c hf
      have hmem := (find_some hf).1
      apply calm_store hc (handleCommand_heard getBlockHash core h c cmd).toFrames
      · exact handleCommand_quiet getBlockHash core h (hc.connections _ hmem)
          (hc.reading _ hmem rfl) (hsol c hf)
      · exact fun ht => absurd ht (handleCommand_task getBlockHash core h c cmd)
    · exact hc
  | process core _ =>
    rw [step]
    split
    · rename_i c bs hf
      apply calm_store hc (processObjects_level core h c bs).toFrames
      · exact processObjects_quiet core h (hc.connections _ (find_some hf).1) bs
      · exact fun ht => absurd ht (processObjects_task core h c bs)
    · exact hc
  | settle core _ =>
    rw [step]
    split
    · rename_i c hf
      obtain ⟨hq,hr⟩ := settle_quiet core h (hc.connections _ (find_some hf).1)
      exact calm_store hc (settle_level core h c).toFrames hq hr
    · exact hc
  | close _ id =>
    rw [step]
    cases hf : h.find id with
    | none => exact hc
    | some _ =>
      exact ⟨fun d hd => hc.connections d (List.mem_of_mem_filter hd),hc.pending,
        fun d hd => hc.reading d (List.mem_of_mem_filter hd)⟩
  | stop => exact ⟨hc.connections,hc.pending,hc.reading⟩

theorem run_calm (hc : Calm h) {es : List Event} (hsol : SolicitedRun getBlockHash h es) :
    Calm (run getBlockHash es h) := by
  induction es generalizing h with
  | nil => exact hc
  | cons _ _ ih => exact ih (step_calm getBlockHash hc hsol.1) hsol.2

theorem startsSync_some {e : Event} (hsts : startsSync h e = some c) :
    ∃ d ∈ h.connections, d.context.state = .syncRequired ∧
      c = { d.context with state := .synchronizing } := by
  cases e with
  | settle _ _ =>
    simp only [startsSync] at hsts
    split at hsts
    · rename_i d hf
      by_cases hsta : d.state = .syncRequired
      · rw [if_pos hsta] at hsts
        exact ⟨_,(find_some hf).1,hsta,(Option.some.inj hsts).symm⟩
      · rw [if_neg hsta] at hsts
        cases hsts
    · cases hsts
  | _ => cases hsts

/-- In a run where unknown blocks are named only to connections that
synchronise, every synchronisation begins with empty lists. -/
theorem startsSync_empty (es : List Event) (e : Event) (c : ConnectionContext)
    (hsolicited : SolicitedRun getBlockHash Handler.initial es)
    (hstarts : startsSync (run getBlockHash es Handler.initial) e = some c) :
    c.neededObjects = [] ∧ c.requestedObjects = ∅ := by
  have hini : Calm Handler.initial :=
    ⟨List.forall_mem_nil _,List.forall_mem_nil _,List.forall_mem_nil _⟩
  obtain ⟨d,hd,hsta,rfl⟩ := startsSync_some hstarts
  apply ((run_calm getBlockHash hini hsolicited).connections d hd).empty
  · rw [hsta]
    decide
  · rw [hsta]
    decide

def knownEntry : List Event :=
  [.accept 1, .settle sampleCore 1, .command sampleCore 1 (.handshake 1 true 7 ⟨10,1⟩),
    .settle sampleCore 1, .command sampleCore 1 (.responseChainEntry 0 1 [1]),
    .settle sampleCore 1, .command sampleCore 1 (.timedSync ⟨11,6⟩)]

/-- The peer names a block that the node has before it reports a new top. -/
theorem startsSync_empty_sample : ∃ c,
    startsSync (run sampleHash knownEntry Handler.initial) (.settle sampleCore 1) = some c ∧
      c.neededObjects = [] ∧ c.requestedObjects = ∅ := by
  have hsol : SolicitedRun sampleHash Handler.initial knownEntry := by
    refine ⟨trivial,trivial,fun _ _ => trivial,trivial,?_,trivial,fun _ _ => trivial,trivial⟩
    rintro c - - ⟨id,hid,hnew⟩
    rw [List.mem_singleton.mp hid] at hnew
    cases hnew
  exact ⟨_,rfl,startsSync_empty sampleHash knownEntry (.settle sampleCore 1) _ hsol rfl⟩

/-- The peer of a connection in its normal state names a block that was not
asked for, and reports an unknown top: the block is part of the
synchronisation that begins. -/
theorem startsSync_unsolicited : (startsSync (run sampleHash
        [.accept 1, .settle sampleCore 1, .command sampleCore 1 (.handshake 1 true 7 ⟨10,1⟩),
          .settle sampleCore 1, .command sampleCore 1 (.responseChainEntry 0 2 [1, 9]),
          .settle sampleCore 1, .command sampleCore 1 (.timedSync ⟨11,6⟩)]
        Handler.initial) (.settle sampleCore 1)).map
      (fun c => (c.neededObjects, c.requestedObjects)) = some ([], {9}) := by
  decide +kernel

end Starts

end Orbis.PeerEntries
