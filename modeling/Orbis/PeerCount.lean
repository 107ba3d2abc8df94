import Mathlib.Data.Finset.Card
import Mathlib.Data.Finset.Option
import Orbis.PeerHeights

/-!
# The number of peers

The handler counts a peer when the data of its handshake is processed and
discounts a connection that is closed in any state but the first. The node
server completes and refuses handshakes, and a connection can leave the first
state without one. Beside the handler we keep the set of connections that have
completed a handshake and are still open. The counter is the size of that set
as long as no step of the run tells the two apart.
-/

set_option autoImplicit false

namespace Orbis.PeerCount

open ChainTypes PeerHandler PeerHeights

section Record

structure Census where
  handler : Handler
  completed : Finset ConnectionId

def Census.initial : Census := ⟨Handler.initial,∅⟩

def Greets (c : ConnectionContext) : Command → Prop
  | .handshake _ sameNetwork _ _ => sameNetwork = true ∧ c.isIncome = true ∧ c.peerId = 0
  | _ => False

instance decidableGreets (c : ConnectionContext) (command : Command) :
    Decidable (Greets c command) := by
  cases command <;> unfold Greets <;> infer_instance

def completes (h : Handler) : Event → Option ConnectionId
  | .connect _ id _ _ _ => if h.known id then none else some id
  | .command _ id command =>
    match h.find id with
    | some ⟨c,.reading⟩ => if Greets c command then some id else none
    | _ => none
  | _ => none

def ends (h : Handler) : Event → Option ConnectionId
  | .close _ id => (h.find id).map fun _ => id
  | .abandon id => (h.waiting id).map fun _ => id
  | _ => none

variable (getBlockHash : Block → Hash)

def advance (s : Census) (e : Event) : Census where
  handler := step getBlockHash s.handler e
  completed := (s.completed ∪ (completes s.handler e).toFinset) \ (ends s.handler e).toFinset

def census : List Event → Census → Census
  | [], s => s
  | e :: es, s => census es (advance getBlockHash s e)

theorem census_handler (es : List Event) (s : Census) :
    (census getBlockHash es s).handler = run getBlockHash es s.handler := by
  induction es generalizing s with
  | nil => rfl
  | cons e _ ih => exact ih (advance getBlockHash s e)

def Counted (s : Census) : Prop := s.handler.peersCount = UInt64.ofNat s.completed.card

instance decidableCounted (s : Census) : Decidable (Counted s) :=
  inferInstanceAs (Decidable (s.handler.peersCount = UInt64.ofNat s.completed.card))

end Record

section Condition

/-- A handshake is taken once on a connection, a connection is closed after
its handshake or in the first state, and none is given up after the data of
its handshake was processed. -/
def Regular (s : Census) : Event → Prop
  | .command _ id command =>
    ∀ c, s.handler.find id = some ⟨c,.reading⟩ → Greets c command → id ∉ s.completed
  | .close _ id =>
    ∀ c, s.handler.find id = some c →
      (c.context.state ≠ .beforeHandshake ↔ id ∈ s.completed)
  | .abandon id => ∀ c, s.handler.waiting id = some c → id ∉ s.completed
  | _ => True

variable (getBlockHash : Block → Hash)

def RegularRun : Census → List Event → Prop
  | _, [] => True
  | s, e :: es => Regular s e ∧ RegularRun (advance getBlockHash s e) es

end Condition

variable {id : ConnectionId}

section Known

def ids (h : Handler) : List ConnectionId :=
  h.connections.map (·.context.connectionId) ++ h.pending.map (·.connectionId)

variable {h : Handler}

theorem mem_ids : id ∈ ids h ↔ (∃ c ∈ h.connections, c.context.connectionId = id) ∨
      ∃ c ∈ h.pending, c.connectionId = id := by
  simp [ids]

theorem known_of_mem_ids (hid : id ∈ ids h) : h.known id = true := by
  rw [Handler.known, Bool.or_eq_true]
  rcases mem_ids.mp hid with ⟨c,hc,hid⟩ | ⟨c,hc,hid⟩
  · left
    rw [Handler.find, List.find?_isSome]
    exact ⟨c,hc,by simpa using hid⟩
  · right
    rw [Handler.waiting, List.find?_isSome]
    exact ⟨c,hc,by simpa using hid⟩

theorem waiting_id {c : ConnectionContext} (hw : h.waiting id = some c) : c.connectionId = id := by
  simpa using List.find?_some hw

theorem ids_store {o : Outcome} {c : Connection} (hf : h.find id = some c)
    (hfrs : o.Frames h c.context) :
    ids (o.store id) = ids h ∧ (o.store id).pending = h.pending := by
  have hs : ∀ d : Connection,
      (if d.context.connectionId = id then ⟨o.context,o.task⟩ else d).context.connectionId =
        d.context.connectionId := by
    intro d
    split_ifs with hd
    · rw [hd, ← (find_some hf).2]
      exact hfrs.connectionId
    · rfl
  constructor
  · simp only [ids, Outcome.store, List.map_map, hfrs.connections, hfrs.pending]
    congr 1
    apply List.map_congr_left
    intro d _
    exact hs d
  · exact hfrs.pending

end Known

section Counter

theorem ofNat_succ (k : ℕ) : UInt64.ofNat (k + 1) = UInt64.ofNat k + 1 := UInt64.ofNat_add k 1

theorem succ_ne (n : UInt64) : n + 1 ≠ n := by
  intro heq
  have hone : (1 : UInt64) = 0 := add_eq_left.mp heq
  exact absurd hone (by decide)

variable {cmp : Finset ConnectionId} {n : UInt64}

theorem raised_iff (hctd : n = UInt64.ofNat cmp.card) :
    n + 1 = UInt64.ofNat (cmp ∪ {id}).card ↔ id ∉ cmp := by
  by_cases hid : id ∈ cmp
  · rw [Finset.union_eq_left.mpr (Finset.singleton_subset_iff.mpr hid), ← hctd]
    exact iff_of_false (succ_ne n) (not_not_intro hid)
  · rw [Finset.union_comm, ← Finset.insert_eq, Finset.card_insert_of_notMem hid, ofNat_succ, ← hctd]
    exact iff_of_true rfl hid

theorem card_sdiff_mem (hid : id ∈ cmp) :
    UInt64.ofNat cmp.card = UInt64.ofNat (cmp \ {id}).card + 1 := by
  rw [← ofNat_succ, Finset.sdiff_singleton_eq_erase, Finset.card_erase_add_one hid]

theorem kept_iff (hctd : n = UInt64.ofNat cmp.card) :
    n = UInt64.ofNat (cmp \ {id}).card ↔ id ∉ cmp := by
  by_cases hid : id ∈ cmp
  · rw [hctd, card_sdiff_mem hid]
    exact iff_of_false (succ_ne _) (not_not_intro hid)
  · rw [Finset.sdiff_singleton_eq_erase, Finset.erase_eq_of_notMem hid]
    exact iff_of_true hctd hid

theorem lowered_iff (hctd : n = UInt64.ofNat cmp.card) :
    n - 1 = UInt64.ofNat (cmp \ {id}).card ↔ id ∈ cmp := by
  by_cases hid : id ∈ cmp
  · rw [hctd, card_sdiff_mem hid, add_sub_cancel_right]
    exact iff_of_true rfl hid
  · rw [Finset.sdiff_singleton_eq_erase, Finset.erase_eq_of_notMem hid, ← hctd, sub_eq_iff_eq_add]
    exact iff_of_false (succ_ne n).symm hid

end Counter

section Handlers

variable (getBlockHash : Block → Hash) (core : Core) (h : Handler) (c : ConnectionContext)

theorem processPayloadSyncData_peersCount (pl : CoreSyncData) (ini : Bool) :
    (processPayloadSyncData core h pl c ini).1.peersCount =
      if ini then h.peersCount + 1 else h.peersCount := by
  cases ini with
  | false =>
    change _ = h.peersCount
    unfold processPayloadSyncData
    split_ifs <;> first | rfl | contradiction
  | true =>
    change _ = h.peersCount + 1
    unfold processPayloadSyncData
    rw [if_neg (by simp)]
    dsimp only
    split_ifs <;> first | rfl | contradiction

theorem requestMissingObjects_peersCount (chb : Bool) :
    (requestMissingObjects core h c chb).outcome.handler.peersCount = h.peersCount := by
  unfold requestMissingObjects
  split_ifs <;> rfl

theorem handleHandshake_peersCount (ver : UInt8) (sn : Bool) (pid : PeerId)
    (pl : CoreSyncData) :
    (handleHandshake core h ver sn pid pl c).handler.peersCount =
      if sn = true ∧ c.isIncome = true ∧ c.peerId = 0 then h.peersCount + 1
      else h.peersCount := by
  unfold handleHandshake
  dsimp only
  cases sn <;> cases hi : c.isIncome
  · simp [Outcome.done]
  · simp [Outcome.done]
  · simp [Outcome.done]
  · by_cases hp : c.peerId = 0
    · simpa [hp, Outcome.done] using processPayloadSyncData_peersCount core h _ pl true
    · simp [hp, Outcome.done]

theorem handleCommand_peersCount (cmd : Command) :
    (handleCommand getBlockHash core h c cmd).handler.peersCount =
      if Greets c cmd then h.peersCount + 1 else h.peersCount := by
  cases cmd with
  | handshake ver sn pid pl =>
    exact handleHandshake_peersCount core h c ver sn pid pl
  | timedSync pl => exact processPayloadSyncData_peersCount core h c pl false
  | timedSyncResponse peerlistAccepted pl =>
    cases peerlistAccepted with
    | false => rfl
    | true => exact processPayloadSyncData_peersCount core h c pl false
  | newBlock e ch =>
    change (handleNotifyNewBlock core h e ch c).handler.peersCount = h.peersCount
    unfold handleNotifyNewBlock
    dsimp only
    split_ifs <;> rfl
  | requestGetObjects => rfl
  | responseGetObjects ch bs =>
    change (handleResponseGetObjects getBlockHash core h ch bs c).handler.peersCount = h.peersCount
    unfold handleResponseGetObjects
    split_ifs
    · rfl
    · dsimp only
      split
      · rfl
      · split_ifs <;> rfl
  | requestChain blockIds =>
    simp only [handleCommand, handleRequestChain]
    cases blockIds.getLast? <;> rfl
  | responseChainEntry sh th blockIds =>
    cases blockIds with
    | nil => rfl
    | cons id blockIds =>
      change (handleResponseChainEntry core h sh th (id :: blockIds)
        c).handler.peersCount = h.peersCount
      unfold handleResponseChainEntry
      dsimp only
      split_ifs
      · rfl
      · exact requestMissingObjects_peersCount core h _ false
  | other => rfl

theorem processObjects_peersCount (bs : List BlockCompleteEntry) :
    (processObjects core h bs c).handler.peersCount = h.peersCount := by
  cases bs with
  | nil =>
    simp only [processObjects]
    split_ifs
    · exact requestMissingObjects_peersCount core h c true
    · rfl
  | cons _ _ =>
    simp only [processObjects]
    split_ifs <;> rfl

theorem settle_peersCount : (PeerHandler.settle core h c).handler.peersCount = h.peersCount := by
  unfold PeerHandler.settle
  split <;> rfl

end Handlers

variable {s : Census}

section Steps

variable (getBlockHash : Block → Hash) {h : Handler} {e : Event}

theorem advance_completed (hc : completes s.handler e = none)
    (hen : ends s.handler e = none) : (advance getBlockHash s e).completed = s.completed := by
  simp [advance, hc, hen]

def Listed (s : Census) : Prop := ∀ id ∈ s.completed, id ∈ ids s.handler

theorem listed_initial : Listed Census.initial := by
  intro id hid
  simp [Census.initial] at hid

theorem mem_advance (hid : id ∈ (advance getBlockHash s e).completed) :
    (id ∈ s.completed ∨ completes s.handler e = some id) ∧ ends s.handler e ≠ some id := by
  simpa [advance] using hid

theorem completes_command {core : Core} {id o : ConnectionId} {cmd : Command}
    (hc : completes h (.command core id cmd) = some o) : o = id ∧ ∃ c, h.find id = some c := by
  simp only [completes] at hc
  split at hc
  · rename_i c hf
    split_ifs at hc
    exact ⟨(Option.some.inj hc).symm,_,hf⟩
  · cases hc

theorem ids_of_find {c : Connection} (hf : h.find id = some c) : id ∈ ids h :=
  mem_ids.mpr (.inl ⟨c,find_some hf⟩)

theorem ids_enter (h : Handler) (c : ConnectionContext) (hid : id ∈ ids h) :
    id ∈ ids (h.enter c) := by
  rcases mem_ids.mp hid with ⟨d,hd,hid⟩ | hp
  · exact mem_ids.mpr (.inl ⟨d,List.mem_append_left _ hd,hid⟩)
  · exact mem_ids.mpr (.inr hp)

theorem ids_forget {id o : ConnectionId} (hid : o ∈ ids h) (hne : o ≠ id) :
    o ∈ ids (h.forget id) := by
  rcases mem_ids.mp hid with hen | ⟨d,hd,hid⟩
  · exact mem_ids.mpr (.inl hen)
  · refine mem_ids.mpr (.inr ⟨d,List.mem_filter.mpr ⟨hd,?_⟩,hid⟩)
    simpa [hid] using hne

theorem ids_remove {id o : ConnectionId} (hid : o ∈ ids h) (hne : o ≠ id) :
    o ∈ ids (h.remove id) := by
  rcases mem_ids.mp hid with ⟨d,hd,hid⟩ | hp
  · refine mem_ids.mpr (.inl ⟨d,List.mem_filter.mpr ⟨hd,?_⟩,hid⟩)
    simpa [hid] using hne
  · exact mem_ids.mpr (.inr hp)

theorem advance_listed (hlsd : Listed s) (e : Event) : Listed (advance getBlockHash s e) := by
  intro o hmem
  obtain ⟨hc,hends⟩ := mem_advance getBlockHash hmem
  change o ∈ ids (step getBlockHash s.handler e)
  cases e with
  | accept _ =>
    have hid := hc.elim (hlsd o) fun h => by cases h
    simp only [step]
    split_ifs
    · exact hid
    · exact ids_enter s.handler _ hid
  | connect core id ver _ pl =>
    by_cases hkn : s.handler.known id = true
    · simp only [completes, step, hkn, if_true] at hc ⊢
      exact hc.elim (hlsd o) fun h => by cases h
    · simp only [completes, step, if_neg hkn] at hc ⊢
      obtain ⟨⟨hco,hp,hs⟩,-,-⟩ := processPayloadSyncData_heard core s.handler
        { ConnectionContext.opened id false with version := ver } pl true fun _ => rfl
      simp only [Outcome.done] at hco hp hs
      rw [mem_ids, hco, hp]
      rcases hc with hold | hnew
      · rcases mem_ids.mp (hlsd o hold) with hen | ⟨d,hd,hid⟩
        · exact .inl hen
        · exact .inr ⟨d,List.mem_append_left _ hd,hid⟩
      · refine .inr ⟨_,List.mem_append_right _ (List.mem_singleton_self _),?_⟩
        exact hs.trans (Option.some.inj hnew)
  | register id =>
    have hid := hc.elim (hlsd o) fun h => by cases h
    simp only [step]
    cases hw : s.handler.waiting id with
    | none => exact hid
    | some c =>
      by_cases hoth : o = id
      · refine mem_ids.mpr (.inl ⟨⟨c,.settling⟩,?_,(waiting_id hw).trans hoth.symm⟩)
        exact List.mem_append_right _ (List.mem_singleton_self _)
      · exact ids_enter _ c (ids_forget hid hoth)
  | abandon id =>
    have hid := hc.elim (hlsd o) fun h => by cases h
    cases hw : s.handler.waiting id with
    | none =>
      rcases mem_ids.mp hid with hen | ⟨d,hd,hdid⟩
      · exact mem_ids.mpr (.inl hen)
      · refine mem_ids.mpr (.inr ⟨d,List.mem_filter.mpr ⟨hd,?_⟩,hdid⟩)
        simpa using List.find?_eq_none.mp hw d hd
    | some _ =>
      apply ids_forget hid
      intro hoth
      apply hends
      simp [ends, hw, hoth]
  | command core _ cmd =>
    have hid : o ∈ ids s.handler := by
      rcases hc with hold | hnew
      · exact hlsd o hold
      · obtain ⟨rfl,c,hf⟩ := completes_command hnew
        exact ids_of_find hf
    simp only [step]
    split
    · rename_i c hf
      rw [(ids_store hf (handleCommand_heard getBlockHash core s.handler c cmd).toFrames).1]
      exact hid
    · exact hid
  | process core _ =>
    have hid := hc.elim (hlsd o) fun h => by cases h
    simp only [step]
    split
    · rename_i c bs hf
      rw [(ids_store hf (processObjects_level core s.handler c bs).toFrames).1]
      exact hid
    · exact hid
  | settle core _ =>
    have hid := hc.elim (hlsd o) fun h => by cases h
    simp only [step]
    split
    · rename_i c hf
      rw [(ids_store hf (settle_level core s.handler c).toFrames).1]
      exact hid
    · exact hid
  | close core id =>
    have hid := hc.elim (hlsd o) fun h => by cases h
    simp only [step]
    cases hf : s.handler.find id with
    | none => exact hid
    | some c =>
      have hoth : o ≠ id := by
        intro hoth
        apply hends
        simp [ends, hf, hoth]
      exact ids_remove (h := onConnectionClosed core s.handler c.context) hid hoth
  | stop => exact hc.elim (hlsd o) fun h => by cases h

theorem counted_kept (hctd : Counted s) (hc : completes s.handler e = none)
    (hen : ends s.handler e = none)
    (hcnt : (step getBlockHash s.handler e).peersCount = s.handler.peersCount) :
    Counted (advance getBlockHash s e) := by
  unfold Counted
  rw [advance_completed getBlockHash hc hen]
  exact hcnt.trans hctd

theorem connect_counted (hctd : Counted s) (hlsd : Listed s) (core : Core) (id : ConnectionId)
    (ver : UInt8) (pid : PeerId) (pl : CoreSyncData) :
    Counted (advance getBlockHash s (.connect core id ver pid pl)) := by
  by_cases hkn : s.handler.known id = true
  · apply counted_kept getBlockHash hctd
    · simp [completes, hkn]
    · rfl
    · simp [step, hkn]
  · have hfr : id ∉ s.completed := fun hid => hkn (known_of_mem_ids (hlsd id hid))
    have hc : (advance getBlockHash s (.connect core id ver pid pl)).completed =
        s.completed ∪ {id} := by
      simp [advance, completes, ends, hkn]
    have hcnt : (step getBlockHash s.handler
        (.connect core id ver pid pl)).peersCount = s.handler.peersCount + 1 := by
      simp only [step, if_neg hkn]
      exact processPayloadSyncData_peersCount core s.handler _ pl true
    unfold Counted
    rw [hc]
    exact hcnt.trans ((raised_iff hctd).mpr hfr)

theorem abandon_counted_iff (hctd : Counted s) (id : ConnectionId) :
    Counted (advance getBlockHash s (.abandon id)) ↔ Regular s (.abandon id) := by
  cases hw : s.handler.waiting id with
  | none =>
    apply iff_of_true
    · apply counted_kept getBlockHash hctd rfl _ rfl
      simp [ends, hw]
    · intro c hc
      rw [hw] at hc
      cases hc
  | some c =>
    have hcm : (advance getBlockHash s (.abandon id)).completed = s.completed \ {id} := by
      simp [advance, completes, ends, hw]
    unfold Counted
    rw [hcm]
    apply (kept_iff hctd).trans
    exact ⟨fun hfr _ _ => hfr,fun hreg => hreg c hw⟩

theorem command_counted_iff (hctd : Counted s) (core : Core) (id : ConnectionId)
    (cmd : Command) : Counted (advance getBlockHash s (.command core id cmd)) ↔
      Regular s (.command core id cmd) := by
  by_cases hg : ∃ c, s.handler.find id = some ⟨c,.reading⟩ ∧ Greets c cmd
  · obtain ⟨c,hf,hg⟩ := hg
    have hc : (advance getBlockHash s (.command core id cmd)).completed = s.completed ∪ {id} := by
      simp [advance, completes, ends, hf, hg]
    have hcnt : (step getBlockHash s.handler (.command core id cmd)).peersCount =
        s.handler.peersCount + 1 := by
      simp only [step, hf]
      exact (handleCommand_peersCount getBlockHash core s.handler c cmd).trans (if_pos hg)
    unfold Counted
    rw [hc]
    change (step getBlockHash s.handler (.command core id cmd)).peersCount = _ ↔ _
    rw [hcnt]
    apply (raised_iff hctd).trans
    exact ⟨fun hfr _ _ _ => hfr,fun hreg => hreg c hf hg⟩
  · have hnot : ∀ c, s.handler.find id = some ⟨c,.reading⟩ → ¬Greets c cmd :=
      fun c hf hg' => hg ⟨c,hf,hg'⟩
    apply iff_of_true
    · apply counted_kept getBlockHash hctd _ rfl
      · simp only [step]
        split
        · rename_i c hf
          apply (handleCommand_peersCount getBlockHash core s.handler c cmd).trans
          exact if_neg (hnot c hf)
        · rfl
      · simp only [completes]
        split
        · rename_i c hf
          exact if_neg (hnot c hf)
        · rfl
    · intro c hf hg'
      exact absurd hg' (hnot c hf)

theorem close_counted_iff (hctd : Counted s) (core : Core) (id : ConnectionId) :
    Counted (advance getBlockHash s (.close core id)) ↔ Regular s (.close core id) := by
  cases hf : s.handler.find id with
  | none =>
    apply iff_of_true
    · apply counted_kept getBlockHash hctd rfl
      · simp [ends, hf]
      · simp [step, hf]
    · intro c hc
      rw [hf] at hc
      cases hc
  | some c =>
    have hreg : Regular s (.close core id) ↔
        (c.context.state ≠ .beforeHandshake ↔ id ∈ s.completed) := by
      constructor
      · intro h
        exact h c hf
      · intro h d hd
        obtain rfl : c = d := Option.some.inj (hf.symm.trans hd)
        exact h
    have hcm : (advance getBlockHash s (.close core id)).completed = s.completed \ {id} := by
      simp [advance, completes, ends, hf]
    have hcnt : (step getBlockHash s.handler (.close core id)).peersCount =
        if c.context.state ≠ .beforeHandshake then s.handler.peersCount - 1
        else s.handler.peersCount := by
      simp only [step, hf]
      rfl
    rw [hreg]
    unfold Counted
    rw [hcm]
    change (step getBlockHash s.handler (.close core id)).peersCount = _ ↔ _
    rw [hcnt]
    by_cases hsta : c.context.state ≠ .beforeHandshake
    · rw [if_pos hsta, lowered_iff hctd]
      exact ⟨fun hid => iff_of_true hsta hid,fun h => h.mp hsta⟩
    · rw [if_neg hsta, kept_iff hctd]
      exact ⟨fun hid => iff_of_false hsta hid,fun h hid => hsta (h.mpr hid)⟩

theorem advance_counted_iff (hctd : Counted s) (hlsd : Listed s) (e : Event) :
    Counted (advance getBlockHash s e) ↔ Regular s e := by
  cases e with
  | accept _ =>
    refine iff_of_true (counted_kept getBlockHash hctd rfl rfl ?_) trivial
    simp only [step]
    split_ifs <;> rfl
  | connect core id ver pid pl =>
    exact iff_of_true (connect_counted getBlockHash hctd hlsd core id ver pid pl)
      trivial
  | register _ =>
    refine iff_of_true (counted_kept getBlockHash hctd rfl rfl ?_) trivial
    simp only [step]
    split <;> rfl
  | abandon id => exact abandon_counted_iff getBlockHash hctd id
  | command core id cmd => exact command_counted_iff getBlockHash hctd core id cmd
  | process core _ =>
    refine iff_of_true (counted_kept getBlockHash hctd rfl rfl ?_) trivial
    simp only [step]
    split
    · rename_i c bs _
      exact processObjects_peersCount core s.handler c bs
    · rfl
  | settle core _ =>
    refine iff_of_true (counted_kept getBlockHash hctd rfl rfl ?_) trivial
    simp only [step]
    split
    · rename_i c _
      exact settle_peersCount core s.handler c
    · rfl
  | close core id => exact close_counted_iff getBlockHash hctd core id
  | stop => exact iff_of_true (counted_kept getBlockHash hctd rfl rfl rfl) trivial

end Steps

section Runs

variable (getBlockHash : Block → Hash)

-- the state after the first step is the start of the rest of the run
theorem counted_run_iff (hctd : Counted s) (hlsd : Listed s) (es : List Event) :
    (∀ n, Counted (census getBlockHash (es.take n) s)) ↔ RegularRun getBlockHash s es := by
  induction es generalizing s with
  | nil =>
    apply iff_of_true _ trivial
    intro n
    rw [List.take_nil]
    exact hctd
  | cons e _ ih =>
    have hs := advance_counted_iff getBlockHash hctd hlsd e
    constructor
    · intro hall
      have hfst := hall 1
      have hn : Counted (advance getBlockHash s e) := by simpa [census] using hfst
      refine ⟨hs.mp hn,?_⟩
      rw [← ih hn (advance_listed getBlockHash hlsd e)]
      intro n
      exact hall (n + 1)
    · intro hreg n
      have hn := hs.mpr hreg.1
      cases n with
      | zero => exact hctd
      | succ n =>
        exact (ih hn (advance_listed getBlockHash hlsd e)).mpr hreg.2 n

/-- In every state of a run the number of peers is the number of connections
that completed a handshake and are still open, exactly if every step of the
run is regular. -/
theorem peersCount_counted_iff (es : List Event) :
    (∀ n, (run getBlockHash (es.take n) Handler.initial).peersCount =
        UInt64.ofNat (census getBlockHash (es.take n) Census.initial).completed.card) ↔
      RegularRun getBlockHash Census.initial es := by
  have hini : Counted Census.initial := rfl
  rw [← counted_run_iff getBlockHash hini listed_initial]
  simp only [Counted, census_handler]
  rfl

/-- Three runs that leave no open connection with a handshake, or one, and
another number of peers: a peer of another network is refused and closed, a
handshake with the peer id 0 is repeated, the node connects to itself. -/
theorem peersCount_miscounted :
    let refused : List Event :=
      [.accept 1, .settle sampleCore 1,
        .command sampleCore 1 (.handshake 1 false 7 ⟨5,5⟩), .close sampleCore 1]
    let repeated : List Event :=
      [.accept 1, .settle sampleCore 1, .command sampleCore 1 (.handshake 1 true 0 ⟨5,5⟩),
        .settle sampleCore 1, .command sampleCore 1 (.handshake 1 true 0 ⟨5,5⟩)]
    let itself : List Event := [.connect sampleCore 1 1 7 ⟨5,5⟩, .abandon 1]
    ((run sampleHash refused Handler.initial).peersCount = 18446744073709551615 ∧
        (census sampleHash refused Census.initial).completed.card = 0) ∧
      ((run sampleHash repeated Handler.initial).peersCount = 2 ∧
        (census sampleHash repeated Census.initial).completed.card = 1) ∧
      ((run sampleHash itself Handler.initial).peersCount = 1 ∧
        (census sampleHash itself Census.initial).completed.card = 0) := by
  decide +kernel

end Runs

end Orbis.PeerCount
