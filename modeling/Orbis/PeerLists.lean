import Mathlib.Data.List.TakeWhile
import Orbis.PeerTimes

/-!
# The white and the gray peer list

Peers that were reached are in the white list, others in the gray one. Each
list has a limit and drops its oldest entries, which may be the one that was
just inserted. An address that goes into the white list is taken out of the
gray one, also when the white list has dropped it again at once; then the
address is in neither, however recently it was seen.
-/

set_option autoImplicit false

namespace Orbis.PeerLists

open PeerTimes

@[irreducible]
def localWhitePeerlistLimit : ℕ := 1000

def store (maxSize : ℕ) (ple : PeerlistEntry) (peers : List PeerlistEntry) :
    List PeerlistEntry :=
  if !hasAddress peers ple.adr then trim maxSize (insertByTime ple peers)
  else insertByTime ple (peers.filter (·.adr ≠ ple.adr))

def appendWithPeerWhite (m : PeerlistManager) (ple : PeerlistEntry) : PeerlistManager :=
  if !isIpAllowed m ple.adr.ip then m
  else
    { m with
      white := store localWhitePeerlistLimit ple m.white
      gray := m.gray.filter (·.adr ≠ ple.adr) }

def setPeerJustSeen (m : PeerlistManager) (peer : UInt64) (addr : NetworkAddress) (now : UInt64) :
    PeerlistManager :=
  appendWithPeerWhite m ⟨addr, peer, now⟩

inductive Call where
  | appendWithPeerWhite (ple : PeerlistEntry)
  | appendWithPeerGray (ple : PeerlistEntry)
  | setPeerJustSeen (peer : UInt64) (addr : NetworkAddress) (now : UInt64)
  | mergePeerlist (outer : List PeerlistEntry)

def perform (m : PeerlistManager) : Call → PeerlistManager
  | .appendWithPeerWhite ple => appendWithPeerWhite m ple
  | .appendWithPeerGray ple => appendWithPeerGray m ple
  | .setPeerJustSeen peer addr now => setPeerJustSeen m peer addr now
  | .mergePeerlist outer => mergePeerlist m outer

def run (allowLocalIp : Bool) (calls : List Call) : PeerlistManager :=
  calls.foldl perform ⟨allowLocalIp, [], []⟩

section Lists

structure Stocked (maxSize : ℕ) (peers : List PeerlistEntry) : Prop where
  ordered : peers.Pairwise (·.lastSeen ≤ ·.lastSeen)
  size : peers.length ≤ maxSize

variable {maxSize : ℕ} {ple e : PeerlistEntry} {ps : List PeerlistEntry}

theorem insertByTime_perm (ple : PeerlistEntry) (peers : List PeerlistEntry) :
    (insertByTime ple peers).Perm (ple :: peers) := by
  have h := @List.perm_middle _ ple (peers.takeWhile (·.lastSeen ≤ ple.lastSeen))
    (peers.dropWhile (·.lastSeen ≤ ple.lastSeen))
  rwa [List.takeWhile_append_dropWhile] at h

theorem insertByTime_cons (first : PeerlistEntry) : insertByTime ple (first :: ps) =
    if first.lastSeen ≤ ple.lastSeen then first :: insertByTime ple ps
    else ple :: first :: ps := by
  by_cases h : first.lastSeen ≤ ple.lastSeen <;> simp [insertByTime, h]

theorem insertByTime_ordered (h : ps.Pairwise (·.lastSeen ≤ ·.lastSeen)) :
    (insertByTime ple ps).Pairwise (·.lastSeen ≤ ·.lastSeen) := by
  induction ps with
  | nil => simp [insertByTime]
  | cons first rest ih =>
    rw [insertByTime_cons]
    rw [List.pairwise_cons] at h
    split_ifs with hle
    · refine List.pairwise_cons.mpr ⟨fun r hr => ?_,ih h.2⟩
      rcases mem_of_mem_insertByTime hr with rfl | hr
      · exact hle
      · exact h.1 r hr
    · have hlt := UInt64.le_of_lt (UInt64.not_le.mp hle)
      refine List.pairwise_cons.mpr ⟨?_,List.pairwise_cons.mpr h⟩
      exact List.forall_mem_cons.mpr ⟨hlt,fun r hr => UInt64.le_trans hlt (h.1 r hr)⟩

theorem hasAddress_iff {adr : NetworkAddress} :
    hasAddress ps adr = true ↔ ∃ e ∈ ps, e.adr = adr := by simp [hasAddress]

theorem mem_store (h : e ∈ store maxSize ple ps) : e = ple ∨ e ∈ ps ∧ e.adr ≠ ple.adr := by
  unfold store at h
  split_ifs at h with hnew
  · refine (mem_of_mem_insertByTime (mem_of_mem_trim h)).imp_right fun he => ⟨he,fun heq => ?_⟩
    simp only [Bool.not_eq_true', ← Bool.not_eq_true, hasAddress_iff] at hnew
    exact hnew ⟨e,he,heq⟩
  · exact (mem_of_mem_insertByTime h).imp_right fun he => by simpa using he

theorem store_stocked (h : Stocked maxSize ps) : Stocked maxSize (store maxSize ple ps) := by
  unfold store
  split_ifs with hnew
  · refine ⟨(insertByTime_ordered h.ordered).drop,?_⟩
    rw [trim, List.length_drop]
    omega
  · refine ⟨insertByTime_ordered (h.ordered.filter _),?_⟩
    obtain ⟨e,he,heq⟩ : ∃ e ∈ ps, e.adr = ple.adr := by simpa [hasAddress] using hnew
    have hlt : (ps.filter (·.adr ≠ ple.adr)).length < ps.length :=
      List.length_filter_lt_length_iff_exists.mpr ⟨e,he,by simpa using heq⟩
    rw [(insertByTime_perm _ _).length_eq, List.length_cons]
    exact Nat.le_trans hlt h.size

theorem store_drops_oldest (h : Stocked maxSize ps) (he : e ∈ ple :: ps)
    (hg : ∀ r ∈ store maxSize ple ps, r.adr ≠ e.adr) :
    ∀ r ∈ store maxSize ple ps, e.lastSeen ≤ r.lastSeen := by
  unfold store at hg ⊢
  split_ifs at hg ⊢ with hnew
  · have hin := (insertByTime_perm ple ps).mem_iff.mpr he
    have hord : (insertByTime ple ps).Pairwise _ := insertByTime_ordered h.ordered
    rw [trim] at hg ⊢
    rw [← List.take_append_drop ((insertByTime ple ps).length - maxSize)
      (insertByTime ple ps)] at hin hord
    rcases List.mem_append.mp hin with hin | hin
    · exact fun r hr => (List.pairwise_append.mp hord).2.2 e hin r hr
    · exact absurd rfl (hg e hin)
  · -- a replaced record keeps its address in the list
    exfalso
    have hmem : ∀ r, r ∈ insertByTime ple (ps.filter (·.adr ≠ ple.adr)) ↔
        r = ple ∨ r ∈ ps ∧ r.adr ≠ ple.adr := by
      intro r
      rw [(insertByTime_perm _ _).mem_iff, List.mem_cons, List.mem_filter, decide_eq_true_eq]
    by_cases heq : e.adr = ple.adr
    · exact hg ple ((hmem ple).mpr (.inl rfl)) heq.symm
    · rcases List.mem_cons.mp he with rfl | he
      · exact heq rfl
      · exact hg e ((hmem e).mpr (.inr ⟨he,heq⟩)) rfl

theorem store_gone_iff (h : Stocked maxSize ps) : (∀ r ∈ store maxSize ple ps, r.adr ≠ ple.adr) ↔
      maxSize ≤ ps.length ∧ ∀ w ∈ ps, w.adr ≠ ple.adr ∧ ple.lastSeen < w.lastSeen := by
  have hown : ∀ l : List PeerlistEntry, ple ∈ insertByTime ple l :=
    fun l => (insertByTime_perm ple l).mem_iff.mpr List.mem_cons_self
  by_cases hnew : ∃ w ∈ ps, w.adr = ple.adr
  · obtain ⟨w,hw,heq⟩ := hnew
    refine iff_of_false (fun hg => ?_) fun hall => (hall.2 w hw).1 heq
    rw [store, if_neg (by simpa [hasAddress] using ⟨w,hw,heq⟩)] at hg
    exact hg ple (hown _) rfl
  · push Not at hnew
    rw [store, if_pos (by simpa [hasAddress] using hnew), trim,
      (insertByTime_perm ple ps).length_eq, List.length_cons]
    rcases Nat.lt_or_ge ps.length maxSize with hlt | hge
    · refine iff_of_false (fun hg => ?_) fun hall => absurd hall.1 (by omega)
      rw [Nat.sub_eq_zero_of_le hlt] at hg
      exact hg ple (hown _) rfl
    · rw [show ps.length + 1 - maxSize = 1 by have := h.size; omega, and_iff_right hge]
      cases ps with
      | nil => simp [insertByTime]
      | cons first rest =>
        rw [insertByTime_cons]
        split_ifs with hle
        · refine iff_of_false (fun hg => hg ple (hown rest) rfl) fun hall => ?_
          exact UInt64.not_le.mpr (hall first List.mem_cons_self).2 hle
        · refine iff_of_true hnew fun w hw => ⟨hnew w hw,?_⟩
          rcases List.mem_cons.mp hw with rfl | hw
          · exact UInt64.not_le.mp hle
          · exact UInt64.lt_of_lt_of_le (UInt64.not_le.mp hle)
              ((List.pairwise_cons.mp h.ordered).1 w hw)

end Lists

section Runs

structure Proper (m : PeerlistManager) : Prop where
  white : Stocked localWhitePeerlistLimit m.white
  gray : Stocked localGrayPeerlistLimit m.gray
  apart : ∀ w ∈ m.white, ∀ g ∈ m.gray, w.adr ≠ g.adr
  allowed : ∀ e ∈ m.white ++ m.gray, isIpAllowed m e.adr.ip = true

variable {m : PeerlistManager} {ple : PeerlistEntry}

theorem appendWithPeerWhite_proper (h : Proper m) : Proper (appendWithPeerWhite m ple) := by
  unfold appendWithPeerWhite
  split_ifs with hip
  · exact h
  · refine ⟨store_stocked h.white,⟨h.gray.ordered.filter _,?_⟩,fun w hw g hg => ?_,fun e he => ?_⟩
    · exact Nat.le_trans (List.length_filter_le _ _) h.gray.size
    · rw [List.mem_filter, decide_eq_true_eq] at hg
      rcases mem_store hw with rfl | ⟨hw,-⟩
      · exact fun heq => hg.2 heq.symm
      · exact h.apart w hw g hg.1
    · rcases List.mem_append.mp he with he | he
      · rcases mem_store he with rfl | ⟨he,-⟩
        · exact (by simpa using hip : isIpAllowed m e.adr.ip = true)
        · exact h.allowed e (List.mem_append_left _ he)
      · exact h.allowed e (List.mem_append_right _ (List.mem_of_mem_filter he))

theorem appendWithPeerGray_eq : appendWithPeerGray m ple =
    if isIpAllowed m ple.adr.ip && !hasAddress m.white ple.adr then
      { m with gray := store localGrayPeerlistLimit ple m.gray } else m := by
  unfold appendWithPeerGray store
  split_ifs <;> simp_all

theorem appendWithPeerGray_proper (h : Proper m) : Proper (appendWithPeerGray m ple) := by
  rw [appendWithPeerGray_eq]
  split_ifs with hnew
  · rw [Bool.and_eq_true, Bool.not_eq_true', ← Bool.not_eq_true, hasAddress_iff] at hnew
    refine ⟨h.white,store_stocked h.gray,fun w hw g hg => ?_,fun e he => ?_⟩
    · rcases mem_store hg with rfl | ⟨hg,-⟩
      · exact fun heq => hnew.2 ⟨w,hw,heq⟩
      · exact h.apart w hw g hg
    · rcases List.mem_append.mp he with he | he
      · exact h.allowed e (List.mem_append_left _ he)
      · rcases mem_store he with rfl | ⟨he,-⟩
        · exact hnew.1
        · exact h.allowed e (List.mem_append_right _ he)
  · exact h

theorem foldl_gray_proper {outer : List PeerlistEntry} (h : Proper m) :
    Proper (outer.foldl appendWithPeerGray m) := by
  induction outer generalizing m with
  | nil => exact h
  | cons ple rest ih => exact ih (appendWithPeerGray_proper h)

theorem mergePeerlist_eq (h : Proper m) (outer : List PeerlistEntry) :
    mergePeerlist m outer = outer.foldl appendWithPeerGray m := by
  have hp : Proper (outer.foldl appendWithPeerGray m) := foldl_gray_proper h
  rw [mergePeerlist, trim, Nat.sub_eq_zero_of_le hp.gray.size]
  rfl

theorem run_proper (allowLocalIp : Bool) (cls : List Call) : Proper (run allowLocalIp cls) := by
  induction cls using List.reverseRecOn with
  | nil => exact ⟨⟨.nil,Nat.zero_le _⟩,⟨.nil,Nat.zero_le _⟩,by simp [run],by simp [run]⟩
  | append_singleton cls call ih =>
    rw [run, List.foldl_append]
    cases call with
    | appendWithPeerWhite _ => exact appendWithPeerWhite_proper ih
    | appendWithPeerGray _ => exact appendWithPeerGray_proper ih
    | setPeerJustSeen _ _ _ => exact appendWithPeerWhite_proper ih
    | mergePeerlist outer =>
      change Proper (mergePeerlist (run allowLocalIp cls) outer)
      rw [mergePeerlist_eq ih]
      exact foldl_gray_proper ih

def Gone (m : PeerlistManager) (adr : NetworkAddress) : Prop :=
  ∀ e ∈ m.white ++ m.gray, e.adr ≠ adr

/-- A full list drops an entry only if no older one remains. The two lists are
the entries that it had or that came to it in the call. -/
structure Fair (m m' : PeerlistManager) (white gray : List PeerlistEntry) : Prop where
  white : localWhitePeerlistLimit ≤ m.white.length → ∀ e ∈ white, Gone m' e.adr →
    ∀ r ∈ m'.white, e.lastSeen ≤ r.lastSeen
  gray : localGrayPeerlistLimit ≤ m.gray.length → ∀ e ∈ gray, Gone m' e.adr →
    ∀ r ∈ m'.gray, e.lastSeen ≤ r.lastSeen

def offered (m : PeerlistManager) (ple : PeerlistEntry) : List PeerlistEntry :=
  if isIpAllowed m ple.adr.ip then [ple] else []

/-- An older time for an address of the full gray list, while the white list is
full of newer entries. -/
structure Forgets (m : PeerlistManager) (ple : PeerlistEntry) : Prop where
  allowed : isIpAllowed m ple.adr.ip = true
  whiteFull : localWhitePeerlistLimit ≤ m.white.length
  newer : ∀ w ∈ m.white, w.adr ≠ ple.adr ∧ ple.lastSeen < w.lastSeen
  grayFull : localGrayPeerlistLimit ≤ m.gray.length
  older : ∃ g ∈ m.gray, g.adr = ple.adr ∧
    ∃ r ∈ m.gray, r.adr ≠ ple.adr ∧ r.lastSeen < g.lastSeen

theorem fair_same {white gray : List PeerlistEntry} (hw : ∀ e ∈ white, ¬ Gone m e.adr)
    (hgr : ∀ e ∈ gray, ¬ Gone m e.adr) : Fair m m white gray :=
  ⟨fun _ e he hg => absurd hg (hw e he),fun _ e he hg => absurd hg (hgr e he)⟩

theorem not_gone {e : PeerlistEntry} (he : e ∈ m.white ++ m.gray) : ¬ Gone m e.adr :=
  fun hg => hg e he rfl

theorem appendWithPeerGray_fair (h : Proper m) :
    Fair m (appendWithPeerGray m ple) m.white (offered m ple ++ m.gray) := by
  have hold : ∀ e ∈ m.gray, ¬ Gone m e.adr := fun e he => not_gone (List.mem_append_right _ he)
  rw [appendWithPeerGray_eq, offered]
  split_ifs with hnew hip hip
  · refine ⟨fun _ e he hg => absurd rfl (hg e (List.mem_append_left _ he)),?_⟩
    exact fun _ e he hg => store_drops_oldest h.gray he
      fun r hr => hg r (List.mem_append_right _ hr)
  · simp [hip] at hnew
  · have hk : ∃ w ∈ m.white, w.adr = ple.adr := by simpa [hip, hasAddress] using hnew
    obtain ⟨w,hw,heq⟩ := hk
    refine fair_same (fun e he => not_gone (List.mem_append_left _ he)) ?_
    refine List.forall_mem_cons.mpr ⟨?_,hold⟩
    exact heq ▸ not_gone (List.mem_append_left _ hw)
  · exact fair_same (fun e he => not_gone (List.mem_append_left _ he)) hold

theorem appendWithPeerWhite_fair_iff (h : Proper m) :
    Fair m (appendWithPeerWhite m ple) (offered m ple ++ m.white) m.gray ↔ ¬ Forgets m ple := by
  by_cases hip : isIpAllowed m ple.adr.ip = true
  · have hgo : Gone (appendWithPeerWhite m ple) ple.adr ↔ localWhitePeerlistLimit ≤
        m.white.length ∧ ∀ w ∈ m.white, w.adr ≠ ple.adr ∧ ple.lastSeen < w.lastSeen := by
      rw [← store_gone_iff h.white]
      simp [Gone, appendWithPeerWhite, hip, or_imp]
    have hgr : (appendWithPeerWhite m ple).gray = m.gray.filter (·.adr ≠ ple.adr) := by
      simp [appendWithPeerWhite, hip]
    constructor
    · rintro hf ⟨-,hw,hn,hg,g,hmem,hadr,r,hr,hne,hlt⟩
      have hle := hf.gray hg g hmem (hadr ▸ hgo.mpr ⟨hw,hn⟩) r (by simpa [hgr] using ⟨hr,hne⟩)
      exact UInt64.not_le.mpr hlt hle
    · intro hk
      refine ⟨fun _ e he hg => ?_,fun hfu e he hg r hr => ?_⟩
      · simp only [appendWithPeerWhite, hip, offered] at he hg ⊢
        exact store_drops_oldest h.white he fun r hr => hg r (List.mem_append_left _ hr)
      · have hadr : e.adr = ple.adr := by
          by_contra hne
          exact hg e (List.mem_append_right _ (by simpa [hgr] using ⟨he,hne⟩)) rfl
        obtain ⟨hw,hn⟩ := hgo.mp (hadr ▸ hg)
        rw [hgr, List.mem_filter, decide_eq_true_eq] at hr
        by_contra hlt
        exact hk ⟨hip,hw,hn,hfu,e,he,hadr,r,hr.1,hr.2,UInt64.not_le.mp hlt⟩
  · have hs : appendWithPeerWhite m ple = m := by simp [appendWithPeerWhite, hip]
    rw [hs, offered, if_neg hip]
    exact iff_of_true (fair_same (fun e he => not_gone (List.mem_append_left _ he))
      fun e he => not_gone (List.mem_append_right _ he)) fun hfo => hip hfo.allowed

/-- After any calls no address is in both lists, they keep their limits and
their addresses are allowed. A gray append drops the oldest entry only; a white
append does so unless it forgets an address of the gray list. -/
theorem peerlists_fair_iff (allowLocalIp : Bool) (calls : List Call) (ple : PeerlistEntry)
    (outer : List PeerlistEntry) :
    let m := run allowLocalIp calls
    Proper m ∧ mergePeerlist m outer = outer.foldl appendWithPeerGray m ∧
      Fair m (appendWithPeerGray m ple) m.white (offered m ple ++ m.gray) ∧
      (Fair m (appendWithPeerWhite m ple) (offered m ple ++ m.white) m.gray ↔ ¬ Forgets m ple) := by
  intro m
  have h : Proper m := run_proper allowLocalIp calls
  exact ⟨h,mergePeerlist_eq h outer,appendWithPeerGray_fair h,appendWithPeerWhite_fair_iff h⟩

end Runs

def peer (ip : UInt32) (first later : UInt64) (i : ℕ) : PeerlistEntry :=
  ⟨⟨ip,UInt32.ofNat i⟩,0,if i = 0 then first else later⟩

def whitePeers : List PeerlistEntry := (List.range localWhitePeerlistLimit).map (peer 1 9 9)

def grayPeers : List PeerlistEntry := (List.range localGrayPeerlistLimit).map (peer 2 1 2)

def filling : List Call := whitePeers.map .appendWithPeerWhite ++ [.mergePeerlist grayPeers]

theorem store_append {maxSize : ℕ} {ple : PeerlistEntry} {ps : List PeerlistEntry}
    (hnew : ∀ e ∈ ps, e.adr ≠ ple.adr ∧ e.lastSeen ≤ ple.lastSeen)
    (hs : ps.length < maxSize) : store maxSize ple ps = ps ++ [ple] := by
  have ht : ps.takeWhile (·.lastSeen ≤ ple.lastSeen) = ps :=
    List.takeWhile_eq_self_iff.mpr fun e he => by simpa using (hnew e he).2
  have hd : ps.dropWhile (·.lastSeen ≤ ple.lastSeen) = [] :=
    List.dropWhile_eq_nil_iff.mpr fun e he => by simpa using (hnew e he).2
  rw [store, if_pos (by simpa [hasAddress] using fun e he => (hnew e he).1), insertByTime, ht,
    hd, trim, Nat.sub_eq_zero_of_le (by simpa using hs), List.drop_zero]

theorem limits : localWhitePeerlistLimit = 1000 ∧ localGrayPeerlistLimit = 5000 := by
  unfold localWhitePeerlistLimit localGrayPeerlistLimit
  exact ⟨rfl,rfl⟩

theorem isIpAllowed_public (white gray : List PeerlistEntry) :
    isIpAllowed ⟨true,white,gray⟩ 1 = true ∧ isIpAllowed ⟨true,white,gray⟩ 2 = true := by
  have hl : isLoopback (networkToHost 1) = false ∧ isLoopback (networkToHost 2) = false := by
    decide
  simp [isIpAllowed, hl]

theorem ofNat_ne {i n : ℕ} (hi : i < n) (hn : n < 5000) : UInt32.ofNat i ≠ UInt32.ofNat n := by
  intro heq
  have h : i % 2 ^ 32 = n % 2 ^ 32 := congrArg UInt32.toNat heq
  omega

theorem fill {step : PeerlistManager → PeerlistEntry → PeerlistManager}
    (build : List PeerlistEntry → PeerlistManager) {maxSize n : ℕ} {ip : UInt32}
    {first later : UInt64} (hle : first ≤ later) (hm : maxSize ≤ 5000)
    (hs : ∀ i l, step (build l) (peer ip first later i) =
      build (store maxSize (peer ip first later i) l)) (hn : n ≤ maxSize) :
    ((List.range n).map (peer ip first later)).foldl step (build []) =
      build ((List.range n).map (peer ip first later)) := by
  induction n with
  | zero => rfl
  | succ n ih =>
    rw [List.range_succ, List.map_append, List.foldl_append, ih (by omega)]
    refine (hs n _).trans (congrArg build (store_append ?_ (by simpa using hn)))
    refine List.forall_mem_map.mpr fun i hi => ?_
    have hlt := List.mem_range.mp hi
    refine ⟨by simpa [peer] using ofNat_ne hlt (by omega),?_⟩
    simp only [peer, if_neg (show ¬ n = 0 by omega)]
    split_ifs
    · exact hle
    · exact UInt64.le_rfl

theorem run_filling : run true filling = ⟨true,whitePeers,grayPeers⟩ := by
  have hl := limits
  have hw : run true (whitePeers.map .appendWithPeerWhite) = ⟨true,whitePeers,[]⟩ := by
    rw [run, List.foldl_map]
    refine fill (fun l => ⟨true,l,[]⟩) UInt64.le_rfl (by omega) (fun i l => ?_) (Nat.le_refl _)
    simp [perform, appendWithPeerWhite, peer, isIpAllowed_public]
  rw [filling, run, List.foldl_append]
  change mergePeerlist (run true _) _ = _
  rw [mergePeerlist_eq (run_proper _ _), hw]
  refine fill (fun l => ⟨true,whitePeers,l⟩) (by decide) (by omega) (fun i l => ?_) (Nat.le_refl _)
  rw [appendWithPeerGray_eq, if_pos]
  simp [peer, isIpAllowed_public, hasAddress, whitePeers]

/-- The second gray peer is told to be seen earlier than all white peers. It
leaves both lists, and the first one, which is older, remains. -/
theorem gray_peer_forgotten :
    ¬ Fair (run true filling) (appendWithPeerWhite (run true filling) ⟨⟨2,1⟩,0,0⟩)
      (offered (run true filling) ⟨⟨2,1⟩,0,0⟩ ++ (run true filling).white)
      (run true filling).gray := by
  have hl := limits
  rw [appendWithPeerWhite_fair_iff (run_proper _ _), not_not, run_filling]
  have hmem : ∀ i < 5000, peer 2 1 2 i ∈ grayPeers :=
    fun i hi => List.mem_map_of_mem (List.mem_range.mpr (by omega))
  refine ⟨(isIpAllowed_public _ _).2,by simp [whitePeers],?_,by simp [grayPeers],
    peer 2 1 2 1,hmem 1 (by decide),rfl,peer 2 1 2 0,hmem 0 (by decide),by decide,by decide⟩
  exact List.forall_mem_map.mpr fun _ _ => by simp [peer]

end Orbis.PeerLists
