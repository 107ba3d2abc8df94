import Mathlib.Data.List.TakeWhile
import Mathlib.Data.UInt
import Mathlib.Tactic

/-!
# The times of a remote peer list

A peer sends entries with the times it has seen them and its own clock. The
node shifts the times by the difference of the clocks and merges the entries
into the gray list, from which the oldest ones are dropped. The shift is made
with unsigned words, so the time of an entry that is older than the clock of
the node wraps to the far end of the range.
-/

set_option autoImplicit false

namespace Orbis.PeerTimes

structure NetworkAddress where
  ip : UInt32
  port : UInt32
  deriving DecidableEq

structure PeerlistEntry where
  adr : NetworkAddress
  id : UInt64
  lastSeen : UInt64
  deriving DecidableEq

structure PeerlistManager where
  allowLocalIp : Bool
  white : List PeerlistEntry
  gray : List PeerlistEntry
  deriving DecidableEq

def networkToHost (n : UInt32) : UInt32 :=
  (n <<< (24 : UInt32)) ||| ((n &&& (0xff00 : UInt32)) <<< (8 : UInt32)) |||
    ((n &&& (0xff0000 : UInt32)) >>> (8 : UInt32)) ||| (n >>> (24 : UInt32))

def isLoopback (value : UInt32) : Bool := value &&& (0xff000000 : UInt32) = 0x7f000000

def isPrivate (value : UInt32) : Bool :=
  value &&& (0xff000000 : UInt32) = 0x0a000000 ||
    value &&& (0xfff00000 : UInt32) = 0xac100000 ||
    value &&& (0xffff0000 : UInt32) = 0xc0a80000

@[irreducible]
def localGrayPeerlistLimit : ℕ := 5000

variable (m : PeerlistManager) (now localTime : Int64)

def isIpAllowed (ip : UInt32) : Bool :=
  if isLoopback (networkToHost ip) then false
  else if !m.allowLocalIp && isPrivate (networkToHost ip) then false
  else true

def trim (maxSize : ℕ) (peers : List PeerlistEntry) : List PeerlistEntry :=
  peers.drop (peers.length - maxSize)

def insertByTime (ple : PeerlistEntry) (peers : List PeerlistEntry) : List PeerlistEntry :=
  peers.takeWhile (·.lastSeen ≤ ple.lastSeen) ++ ple ::
    peers.dropWhile (·.lastSeen ≤ ple.lastSeen)

def hasAddress (peers : List PeerlistEntry) (adr : NetworkAddress) : Bool :=
  peers.any (·.adr = adr)

def appendWithPeerGray (ple : PeerlistEntry) : PeerlistManager :=
  if !isIpAllowed m ple.adr.ip then m
  else if hasAddress m.white ple.adr then m
  else if !hasAddress m.gray ple.adr then
    { m with gray := trim localGrayPeerlistLimit (insertByTime ple m.gray) }
  else { m with gray := insertByTime ple (m.gray.filter (·.adr ≠ ple.adr)) }

def mergePeerlist (outer : List PeerlistEntry) : PeerlistManager :=
  let merged := outer.foldl appendWithPeerGray m
  { merged with gray := trim localGrayPeerlistLimit merged.gray }

/-- The difference of the clocks is a signed word, added to an unsigned one. -/
def shiftTime (be : PeerlistEntry) : PeerlistEntry :=
  { be with lastSeen := be.lastSeen + (now - localTime).toUInt64 }

/-- Nothing for an entry from the future of its sender. -/
def fixTimeDelta : List PeerlistEntry → Option (List PeerlistEntry)
  | [] => some []
  | be :: rest =>
    if be.lastSeen > localTime.toUInt64 then none
    else (fixTimeDelta rest).map (shiftTime now localTime be :: ·)

def handleRemotePeerlist (peerlist : List PeerlistEntry) : Option PeerlistManager :=
  (fixTimeDelta now localTime peerlist).map (mergePeerlist m)

def admitted (peerlist : List PeerlistEntry) : List PeerlistEntry :=
  peerlist.filter fun ple => isIpAllowed m ple.adr.ip && !hasAddress m.white ple.adr

def grayAfter (shifted : List PeerlistEntry) (k : ℕ) : List PeerlistEntry :=
  ((shifted.take k).foldl appendWithPeerGray m).gray

variable {m now localTime}

variable {pls ps : List PeerlistEntry} {e : PeerlistEntry}

theorem fixTimeDelta_eq_some {shifted : List PeerlistEntry}
    (h : fixTimeDelta now localTime pls = some shifted) :
    shifted = pls.map (shiftTime now localTime) := by
  induction pls generalizing shifted with
  | nil => simpa [fixTimeDelta] using h.symm
  | cons be _ ih =>
    rw [fixTimeDelta] at h
    by_cases hfut : be.lastSeen > localTime.toUInt64
    · rw [if_pos hfut] at h
      cases h
    · rw [if_neg hfut, Option.map_eq_some_iff] at h
      obtain ⟨_,ht,rfl⟩ := h
      rw [ih ht, List.map_cons]

theorem shiftTime_le_iff (be : PeerlistEntry) :
    (shiftTime now localTime be).lastSeen ≤ now.toUInt64 ↔
      localTime.toUInt64 - be.lastSeen ≤ now.toUInt64 := by
  have hsub : (now - localTime).toUInt64 = now.toUInt64 - localTime.toUInt64 := rfl
  simp only [shiftTime, hsub, UInt64.le_iff_toNat_le, UInt64.toNat_add, UInt64.toNat_sub]
  have hnow := now.toUInt64.toNat_lt
  have hl := localTime.toUInt64.toNat_lt
  have hs := be.lastSeen.toNat_lt
  omega

theorem mem_admitted : e ∈ admitted m pls ↔
    e ∈ pls ∧ isIpAllowed m e.adr.ip = true ∧ hasAddress m.white e.adr = false := by
  simp [admitted]

theorem admitted_shifted : admitted m (pls.map (shiftTime now localTime)) =
      (admitted m pls).map (shiftTime now localTime) := by
  rw [admitted, List.filter_map, admitted]
  rfl

theorem mem_of_mem_insertByTime {ple : PeerlistEntry}
    (h : e ∈ insertByTime ple ps) : e = ple ∨ e ∈ ps := by
  rcases List.mem_append.mp h with h | h
  · exact .inr ((List.takeWhile_sublist _).subset h)
  · exact (List.mem_cons.mp h).imp_right fun h => (List.dropWhile_sublist _).subset h

theorem mem_of_mem_trim {maxSize : ℕ}
    (h : e ∈ trim maxSize ps) : e ∈ ps := List.mem_of_mem_drop h

theorem admitted_gray (m : PeerlistManager) (gray peerlist : List PeerlistEntry) :
    admitted { m with gray := gray } peerlist = admitted m peerlist := rfl

theorem appendWithPeerGray_gray (m : PeerlistManager) (ple : PeerlistEntry) :
    ∀ e ∈ (appendWithPeerGray m ple).gray, e ∈ m.gray ∨ e ∈ admitted m [ple] := by
  intro e he
  unfold appendWithPeerGray at he
  split_ifs at he with hip hw hg
  · exact .inl he
  · exact .inl he
  all_goals
    have ha : admitted m [ple] = [ple] := by simp_all [admitted]
    rw [ha, List.mem_singleton, or_comm]
  · exact mem_of_mem_insertByTime (mem_of_mem_trim he)
  · exact (mem_of_mem_insertByTime he).imp_right List.mem_of_mem_filter

theorem appendWithPeerGray_admitted (m : PeerlistManager) (ple : PeerlistEntry)
    (peerlist : List PeerlistEntry) :
    admitted (appendWithPeerGray m ple) peerlist = admitted m peerlist := by
  unfold appendWithPeerGray
  split_ifs
  · rfl
  · rfl
  · rw [admitted_gray]
  · rw [admitted_gray]

theorem foldl_gray (peerlist : List PeerlistEntry) (m : PeerlistManager) :
    ∀ e ∈ (peerlist.foldl appendWithPeerGray m).gray, e ∈ m.gray ∨ e ∈ admitted m peerlist := by
  induction peerlist generalizing m with
  | nil => exact fun e he => .inl he
  | cons ple rest ih =>
    intro e he
    have hc : admitted m (ple :: rest) = admitted m [ple] ++ admitted m rest := by
      rw [admitted, ← List.singleton_append, List.filter_append]
      rfl
    rw [hc, List.mem_append]
    rcases ih (appendWithPeerGray m ple) e he with h | h
    · exact (appendWithPeerGray_gray m ple e h).imp_right Or.inl
    · exact .inr (.inr (appendWithPeerGray_admitted m ple rest ▸ h))

theorem last_of_append_new {ple : PeerlistEntry} (hip : isIpAllowed m ple.adr.ip = true)
    (hw : hasAddress m.white ple.adr = false) (hle : ∀ e ∈ m.gray, e.lastSeen ≤ ple.lastSeen) :
    ple ∈ (appendWithPeerGray m ple).gray := by
  have hlast : ∀ l : List PeerlistEntry, (∀ e ∈ l, e.lastSeen ≤ ple.lastSeen) →
      insertByTime ple l = l ++ [ple] := by
    intro l hl
    rw [insertByTime, List.takeWhile_eq_self_iff.mpr (by simpa using hl),
      List.dropWhile_eq_nil_iff.mpr (by simpa using hl)]
  have hpos : 0 < localGrayPeerlistLimit := by
    unfold localGrayPeerlistLimit
    decide
  unfold appendWithPeerGray
  rw [hip, hw]
  simp only [Bool.not_true, Bool.false_eq_true, if_false]
  split_ifs with hg
  · -- the list is trimmed at its other end
    rw [hlast _ hle, trim, List.drop_append_of_le_length (by simp; omega)]
    simp
  · rw [hlast _ fun e he => hle e (List.mem_of_mem_filter he)]
    simp

theorem grayAfter_succ (shifted : List PeerlistEntry) (k : ℕ) (hk : k < shifted.length) :
    grayAfter m shifted (k + 1) =
      (appendWithPeerGray ((shifted.take k).foldl appendWithPeerGray m) shifted[k]).gray := by
  rw [grayAfter, List.take_succ_eq_append_getElem hk, List.foldl_append]
  rfl

theorem foldl_admits (peerlist : List PeerlistEntry) (m : PeerlistManager) (ple : PeerlistEntry) :
    admitted (peerlist.foldl appendWithPeerGray m) [ple] = admitted m [ple] := by
  induction peerlist generalizing m with
  | nil => rfl
  | cons first rest ih => rw [List.foldl_cons, ih, appendWithPeerGray_admitted]

theorem grayAfter_old_or_le (shifted : List PeerlistEntry) (bound : UInt64)
    (hb : ∀ e ∈ admitted m shifted, e.lastSeen ≤ bound) (k : ℕ) :
    ∀ e ∈ grayAfter m shifted k, e ∈ m.gray ∨ e.lastSeen ≤ bound := by
  intro e he
  refine (foldl_gray (shifted.take k) m e he).imp_right fun ha => hb e ?_
  exact ((List.take_sublist k shifted).filter _).subset ha

theorem le_of_grayAfter_le (shifted : List PeerlistEntry) (bound : UInt64)
    (h : ∀ k, ∀ e ∈ grayAfter m shifted k, e.lastSeen ≤ bound) :
    ∀ e ∈ admitted m shifted, e.lastSeen ≤ bound := by
  intro e he
  obtain ⟨hin,hadm⟩ := mem_admitted.mp he
  obtain ⟨k,hk,rfl⟩ := List.mem_iff_getElem.mp hin
  by_contra hlate
  have hlt := UInt64.not_le.mp hlate
  have hself : shifted[k] ∈ admitted ((shifted.take k).foldl appendWithPeerGray m) [shifted[k]] :=
    foldl_admits (shifted.take k) m _ ▸ mem_admitted.mpr ⟨List.mem_singleton_self _,hadm⟩
  have hboth := (mem_admitted.mp hself).2
  have hmem := last_of_append_new hboth.1 hboth.2
    fun e he => UInt64.le_of_lt (UInt64.lt_of_le_of_lt (h k e he) hlt)
  exact hlate (h (k + 1) _ (grayAfter_succ shifted k hk ▸ hmem))

/-- When a list is accepted and each of its admitted entries was at most as
old for its sender as the clock of the node, no append puts an entry of the
future into the gray list; if that list had none, it has none after each append
exactly under this condition. -/
theorem merged_times_iff {peerlist : List PeerlistEntry} {m' : PeerlistManager}
    (h : handleRemotePeerlist m now localTime peerlist = some m') :
    ∃ shifted, fixTimeDelta now localTime peerlist = some shifted ∧
      m'.gray = trim localGrayPeerlistLimit (grayAfter m shifted shifted.length) ∧
      ((∀ be ∈ admitted m peerlist, localTime.toUInt64 - be.lastSeen ≤ now.toUInt64) →
        ∀ k, ∀ e ∈ grayAfter m shifted k, e ∈ m.gray ∨ e.lastSeen ≤ now.toUInt64) ∧
      ((∀ e ∈ m.gray, e.lastSeen ≤ now.toUInt64) →
        ((∀ k, ∀ e ∈ grayAfter m shifted k, e.lastSeen ≤ now.toUInt64) ↔
          ∀ be ∈ admitted m peerlist, localTime.toUInt64 - be.lastSeen ≤ now.toUInt64)) := by
  obtain ⟨shifted,hs,rfl⟩ := Option.map_eq_some_iff.mp h
  have hcond : (∀ be ∈ admitted m peerlist, localTime.toUInt64 - be.lastSeen ≤ now.toUInt64) ↔
      ∀ e ∈ admitted m shifted, e.lastSeen ≤ now.toUInt64 := by
    rw [fixTimeDelta_eq_some hs, admitted_shifted, List.forall_mem_map]
    simp only [shiftTime_le_iff]
  refine ⟨shifted,hs,?_,?_,?_⟩
  · rw [grayAfter, List.take_length, mergePeerlist]
  · rw [hcond]
    exact grayAfter_old_or_le shifted _
  · rw [hcond]
    intro hgray
    refine ⟨le_of_grayAfter_le shifted _,fun hle k e he => ?_⟩
    exact (grayAfter_old_or_le shifted _ hle k e he).elim (hgray e) id

def repeatedAddress : List PeerlistEntry :=
  [⟨⟨0x01020304,8080⟩,1,6000⟩,⟨⟨0x01020305,8080⟩,2,0⟩,⟨⟨0x01020305,8080⟩,2,6500⟩]

theorem merged_times_iff_sample :
    ∃ m', handleRemotePeerlist ⟨false,[],[⟨⟨0x01020306,8080⟩,3,100⟩]⟩ 5000 7000 repeatedAddress =
        some m' ∧ (∀ e ∈ m'.gray, e.lastSeen ≤ Int64.toUInt64 5000) ∧
      ∃ shifted, fixTimeDelta 5000 7000 repeatedAddress = some shifted ∧
        ¬ ∀ k, ∀ e ∈ grayAfter ⟨false,[],[⟨⟨0x01020306,8080⟩,3,100⟩]⟩ shifted k,
          e.lastSeen ≤ Int64.toUInt64 5000 := by
  have hrun : handleRemotePeerlist ⟨false,[],[⟨⟨0x01020306,8080⟩,3,100⟩]⟩ 5000 7000
      repeatedAddress = some ⟨false,[],[⟨⟨0x01020306,8080⟩,3,100⟩,
        ⟨⟨0x01020304,8080⟩,1,4000⟩,⟨⟨0x01020305,8080⟩,2,4500⟩]⟩ := by decide +kernel
  obtain ⟨shifted,hs,_,_,hiff⟩ := merged_times_iff hrun
  refine ⟨_,hrun,by decide +kernel,shifted,hs,fun hall => ?_⟩
  exact absurd ((hiff (by decide +kernel)).mp hall) (by decide +kernel)

/-- A sender whose clock is ahead gives an entry that was never seen a time at
the end of the range. -/
theorem ancient_entry_in_future :
    handleRemotePeerlist ⟨false,[],[]⟩ 5000 7000 [⟨⟨0x01020304,8080⟩,1,0⟩] =
      some ⟨false,[],[⟨⟨0x01020304,8080⟩,1,2 ^ 64 - 2000⟩]⟩ ∧
    ¬ ((2 ^ 64 - 2000 : UInt64) ≤ Int64.toUInt64 5000) := by
  decide +kernel

end Orbis.PeerTimes
