import Orbis.PeerTimes

/-!
# The head of the white peer list

The handshake sends the entries of the white list that were seen last. The
loop goes back from the latest entry, leaves out those that were never seen
and compares its counter with the depth after it has appended an entry, with
the value before the increment, so it stops two entries late.
-/

set_option autoImplicit false

namespace Orbis.PeerHead

open PeerTimes

structure TimeIndex where
  peers : List PeerlistEntry
  ordered : peers.Pairwise (·.lastSeen ≤ ·.lastSeen)

section Head

variable (depth : UInt32) (white : TimeIndex) (bsHead : List PeerlistEntry)

def headFrom (cnt : UInt32) : List PeerlistEntry → List PeerlistEntry
  | [] => []
  | vl :: rest =>
    if vl.lastSeen = 0 then headFrom cnt rest
    else if cnt > depth then [vl]
    else vl :: headFrom (cnt + 1) rest

def getPeerlistHead : List PeerlistEntry := bsHead ++ headFrom depth 0 white.peers.reverse

def seen (peers : List PeerlistEntry) : List PeerlistEntry := peers.filter (·.lastSeen ≠ 0)

structure SeenLast (count : ℕ) (peers head : List PeerlistEntry) : Prop where
  length : head.length = count
  descending : head.Pairwise (·.lastSeen ≥ ·.lastSeen)
  chosen : ∃ rest, (head ++ rest).Perm (seen peers) ∧
    ∀ kept ∈ head, ∀ left ∈ rest, left.lastSeen ≤ kept.lastSeen

variable {depth} {cnt : UInt32} {ps : List PeerlistEntry} {vl : PeerlistEntry}

theorem seen_cons (h : vl.lastSeen ≠ 0) : seen (vl :: ps) = vl :: seen ps := by
  simp [seen, h]

theorem seen_cons_zero (h : vl.lastSeen = 0) : seen (vl :: ps) = seen ps := by
  simp [seen, h]

@[simp]
theorem seen_reverse : seen ps.reverse = (seen ps).reverse := List.filter_reverse ..

theorem headFrom_eq_seen (h : cnt.toNat + (seen ps).length ≤ depth.toNat + 1) :
    headFrom depth cnt ps = seen ps := by
  induction ps generalizing cnt with
  | nil => rfl
  | cons vl _ ih =>
    by_cases hs : vl.lastSeen = 0
    · rw [seen_cons_zero hs] at h ⊢
      rw [headFrom, if_pos hs, ih h]
    · rw [seen_cons hs, List.length_cons] at h
      have hd : ¬ depth < cnt := by rw [UInt32.lt_iff_toNat_lt]; omega
      have hn : (cnt + 1).toNat ≤ cnt.toNat + 1 := Nat.mod_le _ _
      rw [headFrom, if_neg hs, if_neg hd, ih (by omega), seen_cons hs]

theorem lt_length_headFrom (h : depth.toNat < cnt.toNat + (seen ps).length) :
    depth.toNat < cnt.toNat + (headFrom depth cnt ps).length := by
  induction ps generalizing cnt with
  | nil => exact h
  | cons vl _ ih =>
    by_cases hs : vl.lastSeen = 0
    · rw [headFrom, if_pos hs]
      exact ih (by rwa [seen_cons_zero hs] at h)
    · rw [headFrom, if_neg hs]
      by_cases hd : depth < cnt
      · rw [UInt32.lt_iff_toNat_lt] at hd
        omega
      · rw [seen_cons hs, List.length_cons] at h
        rw [if_neg hd, List.length_cons]
        -- the counter may wrap, but only after as many entries as there are words
        have hadd : (cnt + 1).toNat = (cnt.toNat + 1) % 2 ^ 32 := rfl
        have hl := depth.toNat_lt
        have := @ih (cnt + 1)
        omega

theorem seenLast_all : SeenLast (seen white.peers).length white.peers (seen white.peers).reverse :=
  ⟨List.length_reverse,List.pairwise_reverse.mpr (white.ordered.filter _),[], by simp,by simp⟩

/-- The appended entries are the ones asked for exactly if there are no more
than that: beyond the depth the loop appends up to two entries too many. -/
theorem head_exact_iff : (∃ head, getPeerlistHead depth white bsHead = bsHead ++ head ∧
      SeenLast (min depth.toNat (seen white.peers).length) white.peers head) ↔
    (seen white.peers).length ≤ depth.toNat := by
  constructor
  · rintro ⟨head,ha,hl⟩
    rw [getPeerlistHead, List.append_cancel_left_eq] at ha
    by_contra hm
    have hla : depth.toNat < (0 : UInt32).toNat + (headFrom depth 0 white.peers.reverse).length :=
      lt_length_headFrom (by simpa using hm)
    rw [ha, hl.length, UInt32.toNat_zero] at hla
    omega
  · intro hle
    refine ⟨(seen white.peers).reverse,?_,?_⟩
    · rw [getPeerlistHead, headFrom_eq_seen (by simp; omega), seen_reverse]
    · rw [min_eq_right hle]
      exact seenLast_all white

end Head

def sampleEntry (n : UInt32) : PeerlistEntry := ⟨⟨n,8080⟩,0,n.toUInt64⟩

def sampleWhite : TimeIndex := ⟨[sampleEntry 1, sampleEntry 2, sampleEntry 3],by decide⟩

/-- Asked for one entry, the node sends three. -/
theorem head_beyond_depth :
    getPeerlistHead 1 sampleWhite [] = [sampleEntry 3, sampleEntry 2, sampleEntry 1] ∧
    ¬ ∃ head, getPeerlistHead 1 sampleWhite [] = [] ++ head ∧
      SeenLast (min (1 : UInt32).toNat (seen sampleWhite.peers).length) sampleWhite.peers head := by
  have hh : getPeerlistHead 1 sampleWhite [] =
      [sampleEntry 3, sampleEntry 2, sampleEntry 1] := by decide
  refine ⟨hh,?_⟩
  rintro ⟨head,ha,hl⟩
  have hlen := hl.length
  rw [← List.nil_append head, ← ha, hh] at hlen
  revert hlen
  decide

end Orbis.PeerHead
