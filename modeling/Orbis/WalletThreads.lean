import Orbis.QueueSleepers
import Orbis.WalletBlocks

/-!
# The threads that read new blocks

`onNewBlocks` waits for its workers and, when it is left, for the thread that
pushes the transactions. That thread looks at `stopProcessing` only between
two blocks, and nothing closes the queue for it: when all workers have gone
after an error or after exceptions, it stays before the full queue if too many
transactions are left. We say how many that are.
-/

set_option autoImplicit false

namespace Orbis.WalletThreads

open Relation ListCursor WorkQueue QueueSleepers Orbis.WalletMoves Orbis.WalletBlocks

section Ends

variable {syncStartTimestamp sst : UInt64} {Info : Type}
  {preprocessOutputs : Item → Except Failure Info → Prop} {hardwareConcurrency : ℕ}

theorem workers_pos (hc : ℕ) : 0 < workers hc := by
  unfold workers
  split_ifs <;> omega

theorem program_heeds : Heeds (program sst preprocessOutputs hardwareConcurrency) := by
  intro p
  cases p with
  | transactions _ txs _ =>
    left
    cases txs <;> rfl
  | blocks ht bs =>
    cases bs with
    | nil => exact .inl rfl
    | cons cpl rest =>
      right
      refine ⟨rfl,?_⟩
      show ∃ q, pushNext sst false (.blocks ht (cpl :: rest)) = .skip q
      simp only [pushNext, Bool.false_eq_true, if_false]
      cases cpl.block with
      | none => exact ⟨_,rfl⟩
      | some _ =>
        dsimp only
        split_ifs
        · exact ⟨_,rfl⟩
        · exact ⟨_,rfl⟩

/-- In every state of every run the threads can still come to their end, where
a sleeping thread wakes only when it is notified, if the transactions left when
an error or exceptions can have ended all workers are never more than the queue
has room for. -/
theorem threads_end (startHeight : ℕ) (blocks : List CompleteBlock)
    (hreturns : ∀ item, ∃ outcome, preprocessOutputs item outcome)
    (hfits : Fits (program syncStartTimestamp preprocessOutputs hardwareConcurrency)
      (workers hardwareConcurrency) (expected syncStartTimestamp startHeight blocks))
    {s : Sleepers Producer Item Info Failure}
    (hreaches : SleepReaches (program syncStartTimestamp preprocessOutputs hardwareConcurrency)
      (Sleepers.start (.blocks startHeight blocks) (workers hardwareConcurrency)) s) :
    ∃ t, DueReaches (program syncStartTimestamp preprocessOutputs hardwareConcurrency) s t ∧
      Ended t := by
  have hcap : 0 < workers hardwareConcurrency * 2 :=
    Nat.mul_pos (workers_pos hardwareConcurrency) (by decide)
  exact reaches_ended program_heeds hreturns hcap (blocks_produces blocks) hfits hreaches

end Ends

def longBlocks : List CompleteBlock :=
  [⟨some (sampleBlock 5),[sampleReader 1 [], sampleReader 2 [], sampleReader 3 []]⟩,
    ⟨some (sampleBlock 6),[sampleReader 4 [], sampleReader 5 [], sampleReader 6 []]⟩]

def lateFailure (item : Item) (outcome : Except Failure Unit) : Prop :=
  outcome = if item.tx.transactionHash = 5 then .error (.code 1) else .ok ()

theorem error_of_lateFailure {item : Item} {e : Failure} (h : lateFailure item (.error e)) :
    item.tx.transactionHash = 5 := by
  by_contra hne
  rw [lateFailure, if_neg hne] at h
  cases h

theorem longBlocks_fit : Fits (program 0 lateFailure 2) (workers 2) (expected 0 3 longBlocks) := by
  intro taken rest hitems hcan
  have hfailed : ∃ a ∈ taken, a.tx.transactionHash = 5 := by
    rcases hcan with ⟨a,ha,e,he,-⟩ | ⟨failed,hle,hcard,hfails⟩
    · exact ⟨a,ha,error_of_lateFailure he⟩
    · have hpos : 0 < failed.card := hcard ▸ workers_pos 2
      obtain ⟨a,ha⟩ := Multiset.card_pos_iff_exists_mem.mp hpos
      obtain ⟨e,he⟩ := hfails a ha
      exact ⟨a,Multiset.mem_coe.mp (Multiset.mem_of_le hle ha),error_of_lateFailure he⟩
  obtain ⟨a,ha,hhash⟩ := hfailed
  have hlen : taken.length + rest.length = 6 := by
    rw [← List.length_append, ← hitems]
    rfl
  show rest.length ≤ 4
  by_contra hmore
  -- of six items with the fifth among those taken, at most one is left
  have hpre : taken <+: (expected 0 3 longBlocks).take 1 := by
    rw [hitems, List.take_append]
    exact (List.take_of_length_le (by omega : taken.length ≤ 1)).symm ▸ List.prefix_append _ _
  obtain rfl := List.mem_singleton.mp (hpre.subset ha)
  revert hhash
  decide

theorem threads_end_sample : ∃ s, SleepReaches (program 0 lateFailure 2)
      (Sleepers.start (.blocks 3 longBlocks) (workers 2)) s ∧ s.asleep = 1 ∧
    ∃ t, DueReaches (program 0 lateFailure 2) s t ∧ Ended t := by
  have hrun : DueReaches (program 0 lateFailure 2)
      (Sleepers.start (.blocks 3 longBlocks) (workers 2)) _ :=
    .head (.skip rfl rfl rfl) (.head (.push rfl rfl rfl rfl (by decide))
      (.head (.enter (c := ⟨[], .ready, [_]⟩) rfl rfl rfl)
      (.head (.enter (c := ⟨[_], .ready, []⟩) rfl rfl rfl)
      (.head (.pop (c := ⟨[], .waiting, [_]⟩) rfl rfl (by decide) rfl)
      (.head (.sleep (by decide) rfl rfl) .refl)))))
  refine ⟨_,hrun.reaches,rfl,threads_end 3 longBlocks ?_ longBlocks_fit hrun.reaches⟩
  exact fun item => ⟨_,rfl⟩

def failingWork (_ : Item) (outcome : Except Failure Unit) : Prop := outcome = .error (.code 1)

def crowdedBlocks : List CompleteBlock :=
  [⟨some (sampleBlock 5),
    [sampleReader 1 [], sampleReader 2 [], sampleReader 3 [], sampleReader 4 []]⟩]

def stuck : State Producer Item Unit Failure where
  producer := some (.transactions ⟨3,5,3⟩ [sampleReader 4 []] [])
  queue := [⟨⟨3,5,1⟩,sampleReader 2 []⟩, ⟨⟨3,5,2⟩,sampleReader 3 []⟩]
  closed := false
  flag := true
  workers := [.finished (some (.code 1))]
  collected := []

theorem stuck_reached :
    DueReaches (program 0 failingWork 1) (Sleepers.start (.blocks 3 crowdedBlocks) (workers 1))
      ⟨stuck,0,true⟩ :=
  .head (.skip rfl rfl rfl) (.head (.push rfl rfl rfl rfl (by decide))
    (.head (.enter (c := ⟨[], .ready, []⟩) rfl rfl rfl)
    (.head (.pop (c := ⟨[], .waiting, []⟩) rfl rfl (by decide) rfl)
    (.head (.push rfl rfl rfl rfl (by decide)) (.head (.push rfl rfl rfl rfl (by decide))
    (.head (.fail (c := ⟨[], .holding _, []⟩) rfl rfl rfl)
    (.head (.stall rfl rfl rfl rfl (by decide)) .refl)))))))

theorem stuck_still {t : State Producer Item Unit Failure}
    (hs : Step (program 0 failingWork 1) stuck t) : False := by
  have hwk : ∀ {c : Cursor (Worker Item Unit Failure)}, c.list = stuck.workers →
      c.item = .finished (some (.code 1)) := by
    intro c hl
    have hmem := c.item_mem
    rw [hl] at hmem
    exact List.mem_singleton.mp hmem
  cases hs with
  | skip at_ next => cases at_; cases next
  | push _ _ _ space => exact absurd space (by decide)
  | lose _ _ cl => cases cl
  | close at_ next => cases at_; cases next
  | enter within item => rw [hwk within] at item; cases item
  | leave within item => rw [hwk within] at item; cases item
  | pop within item => rw [hwk within] at item; cases item
  | exhaust within item => rw [hwk within] at item; cases item
  | succeed within item => rw [hwk within] at item; cases item
  | append within item => rw [hwk within] at item; cases item
  | fail within item => rw [hwk within] at item; cases item

theorem stuck_kept {s t : Sleepers Producer Item Unit Failure} (hb : s.base = stuck)
    (hr : SleepReaches (program 0 failingWork 1) s t) : t.base = stuck := by
  induction hr with
  | refl => exact hb
  | tail _ hs ih =>
    rcases step_refines hs with hs | hsa
    · rw [ih] at hs
      exact absurd hs stuck_still
    · exact hsa.trans ih

/-- One worker and one block with four transactions, of which the first gets
an error code: a state is reached from which the pushing thread never ends. -/
theorem threads_stuck : ∃ s, SleepReaches (program 0 failingWork 1)
        (Sleepers.start (.blocks 3 crowdedBlocks) (workers 1)) s ∧
      (∀ w ∈ s.base.workers, ∃ failure, w = .finished failure) ∧
      ∀ t, SleepReaches (program 0 failingWork 1) s t → t.base.producer ≠ none := by
  refine ⟨_,stuck_reached.reaches,?_,?_⟩
  · intro w hw
    exact ⟨_,List.mem_singleton.mp hw⟩
  · intro t hr
    rw [stuck_kept rfl hr]
    simp [stuck]

end Orbis.WalletThreads
