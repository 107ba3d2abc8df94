import Orbis.ChainPoolSession
import Orbis.ChainTemplate

/-!
# How long the pool refuses an expired transaction

When a transaction leaves the pool because of its age, its id is recorded with
the time, unless there is a record of it, and records are forgotten after a
time of their own. A transaction with a record comes back only through a
block, and then it may stay as long as records are kept. So its old record is
gone when it expires again, and the new one has the new time.
-/

set_option autoImplicit false

namespace Orbis.ChainExpiry

open ChainTypes ChainSemantic ChainBlock ChainPool ChainPoolInputs ChainPoolSession ChainRun
open ChainReady ChainTemplate

inductive Move (env : Env) : UInt64 × Pool → UInt64 × Pool → Prop
  | wait {t now : UInt64} {p : Pool} (later : t ≤ now) : Move env (t, p) (now, p)
  | add {now limit blobSize : UInt64} {m : MainChain} {tx : Transaction} {id : Hash}
      {keptByBlock added : Bool} {tvc : TxVerificationContext} {p p' : Pool}
      (call : addTx env now m limit tx id blobSize keptByBlock p = .ok ((added, tvc), p')) :
      Move env (now, p) (now, p')
  | take {now : UInt64} {id : Hash} {p : Pool} : Move env (now, p) (now, (takeTx env id p).2)
  | template {now medianSize maxCumulativeSize : UInt64} {m : MainChain} {p p' : Pool}
      {result : List Hash × UInt64 × UInt64}
      (call : fillBlockTemplate env now m medianSize maxCumulativeSize p = .ok result p') :
      Move env (now, p) (now, p')
  | expire {now : UInt64} {p : Pool} : Move env (now, p) (now, removeExpiredTransactions env now p)
  | restart {now : UInt64} {p : Pool} : Move env (now, p) (now, init env now (some (serialize p)))

def held (p : Pool) : List (Hash × Bool × UInt64) :=
  p.transactions.map fun d => (d.id, d.keptByBlock, d.receiveTime)

section Records

variable (env : Env) (now : UInt64)

structure Removes (l : List TransactionDetails) (p q : Pool) : Prop where
  held : held q ⊆ held p
  kept : records p ⊆ records q
  new : ∀ r ∈ records q, r ∈ records p ∨ r.2 = now ∧ ∀ x ∈ ChainExpiry.held q, x.1 ≠ r.1
  noted : ∀ d ∈ l, isExpired env now d = true → ∃ r ∈ records q, r.1 = d.id

structure Recorded (p : Pool) : Prop where
  received : ∀ x ∈ held p, x.2.2 ≤ now
  recorded : ∀ r ∈ records p, r.2 ≤ now
  returned : ∀ x ∈ held p, ∀ r ∈ records p, r.1 = x.1 → x.2.1 = true ∧ r.2 ≤ x.2.2

def period : UInt64 :=
  env.currency.numberOfPeriodsToForgetTxDeletedFromPool * env.currency.mempoolTxLiveTime

def Carries (t : UInt64) (p p' : Pool) : Prop :=
  t ≤ now ∧ Recorded now p' ∧ ∀ r ∈ records p, now - r.2 ≤ period env → r ∈ records p'

variable {env now} {t : UInt64} {p p' : Pool}

theorem recordDeleted_effect (now : UInt64) (id : Hash) (p : Pool) :
    (∃ r ∈ records (recordDeleted now id p), r.1 = id) ∧
    records p ⊆ records (recordDeleted now id p) ∧
    (∀ r ∈ records (recordDeleted now id p), r ∈ records p ∨ r = (id, now)) ∧
    (recordDeleted now id p).transactions = p.transactions := by
  unfold recordDeleted
  split_ifs with hdel
  · exact ⟨by simpa [recentlyDeleted] using hdel,List.Subset.refl _,fun r hr => .inl hr,rfl⟩
  · simp [records]

theorem mem_held_removeTransaction {d : TransactionDetails} {x : Hash × Bool × UInt64} :
    x ∈ held (removeTransaction env d p) ↔ x ∈ held p ∧ x.1 ≠ d.id := by
  simp only [held, removeTransaction_transactions, List.mem_map, List.mem_filter, bne_iff_ne]
  constructor
  · rintro ⟨e,⟨he,hne⟩,rfl⟩
    exact ⟨⟨e,he,rfl⟩,hne⟩
  · rintro ⟨⟨e,he,rfl⟩,hne⟩
    exact ⟨e,⟨he,hne⟩,rfl⟩

theorem removeExpired_removes (l : List TransactionDetails) (p : Pool) :
    Removes env now l p (removeExpired env now l p) := by
  induction l generalizing p with
  | nil => exact ⟨List.Subset.refl _,List.Subset.refl _,fun r hr => .inl hr,by simp⟩
  | cons d rest ih =>
    simp only [removeExpired]
    split_ifs with hexp
    · obtain ⟨⟨r,hr,hid⟩,hsub,hnew,htxs⟩ := recordDeleted_effect now d.id p
      obtain ⟨hh,hk,hm,hn⟩ := ih (removeTransaction env d (recordDeleted now d.id p))
      rw [removeTransaction_records] at hk hm
      have hl : ∀ x ∈ held (removeExpired env now rest _), x ∈ held p ∧ x.1 ≠ d.id :=
        fun x hx => (by rw [held, ← htxs]; exact mem_held_removeTransaction.mp (hh hx))
      refine ⟨fun x hx => (hl x hx).1,fun r hr => hk (hsub hr),fun r hr => ?_,?_⟩
      · rcases hm r hr with hold | hla
        · refine (hnew r hold).imp_right ?_
          rintro rfl
          exact ⟨rfl,fun x hx => (hl x hx).2⟩
        · exact .inr hla
      · exact List.forall_mem_cons.mpr ⟨fun _ => ⟨r,hk hr,hid⟩,hn⟩
    · obtain ⟨hh,hk,hm,hn⟩ := ih p
      exact ⟨hh,hk,hm,List.forall_mem_cons.mpr ⟨fun hold => absurd hold hexp,hn⟩⟩

theorem Recorded.congr (h : Recorded now p) (hh : held p' ⊆ held p)
    (hdel : records p' ⊆ records p) : Recorded now p' :=
  ⟨fun x hx => h.received x (hh hx),fun r hr => h.recorded r (hdel hr),
    fun x hx r hr => h.returned x (hh hx) r (hdel hr)⟩

theorem Recorded.carries (h : Recorded now p) (hh : held p' ⊆ held p)
    (hdel : records p' = records p) : Carries env now now p p' :=
  ⟨UInt64.le_rfl,h.congr hh fun _ hr => hdel ▸ hr,fun _ hr _ => hdel ▸ hr⟩

theorem removeExpired_carries (h : Recorded now p) :
    Carries env now now p (removeExpiredTransactions env now p) := by
  have hrem : Removes env now _ _ (removeExpiredTransactions env now p) :=
    removeExpired_removes p.transactions (forgetDeleted env now p)
  have hold : Recorded now (forgetDeleted env now p) :=
    h.congr (List.Subset.refl _) List.filter_sublist.subset
  refine ⟨UInt64.le_rfl,⟨fun x hx => hold.received x (hrem.held hx),fun r hr => ?_,
    fun x hx r hr hid => ?_⟩,fun r hr hage => hrem.kept (List.mem_filter.mpr ⟨hr,?_⟩)⟩
  · exact (hrem.new r hr).elim (hold.recorded r) fun hnew => hnew.1 ▸ UInt64.le_rfl
  · exact (hrem.new r hr).elim (fun hr => hold.returned x (hrem.held hx) r hr hid)
      fun hnew => absurd hid.symm (hnew.2 x hx)
  · simpa [period] using hage

theorem stored_carries {d : TransactionDetails} (h : Recorded now p) (hsto : Stored d p p')
    (ht : d.receiveTime = now) (ha : d.keptByBlock = true ∨ recentlyDeleted d.id p = false) :
    Carries env now now p p' := by
  have hdel := hsto.records
  have hh : held p' = held p ++ [(d.id, d.keptByBlock, now)] := by
    simp [held, hsto.transactions, ht]
  refine ⟨UInt64.le_rfl,⟨?_,hdel ▸ h.recorded,?_⟩,fun _ hr _ => hdel ▸ hr⟩
  · rw [hh, List.forall_mem_append]
    exact ⟨h.received,by simp⟩
  · rw [hh, hdel, List.forall_mem_append]
    refine ⟨h.returned,List.forall_mem_singleton.mpr fun r hr hid => ⟨?_,h.recorded r hr⟩⟩
    refine ha.resolve_right fun hn => ?_
    rw [recentlyDeleted, List.any_eq_false] at hn
    exact hn r hr (by simpa using hid)

theorem Move.carries (h : Move env (t, p) (now, p')) (hp : Recorded t p) :
    Carries env now t p p' := by
  cases h with
  | wait later =>
    exact ⟨later,⟨fun x hx => UInt64.le_trans (hp.received x hx) later,
      fun r hr => UInt64.le_trans (hp.recorded r hr) later,hp.returned⟩,fun _ hr _ => hr⟩
  | add call =>
    rcases addTx_cases call with rfl | ⟨d,hsto,rfl,-,rfl,hti,hf⟩
    · exact hp.carries (List.Subset.refl _) rfl
    · exact stored_carries hp hsto hti (hf.imp_right And.right)
  | @take _ id =>
    rcases takeTx_cases env id p with ⟨-,ht⟩ | ⟨d,-,-,ht⟩
    · rw [ht]
      exact hp.carries (List.Subset.refl _) rfl
    · rw [ht]
      exact hp.carries (fun x hx => (mem_held_removeTransaction.mp hx).1)
        (removeTransaction_records d p)
  | template call =>
    have hs := (fillBlockTemplate_filled call).2
    have hh : ∀ q : Pool, held q = (q.transactions.map bare).map
        fun d => (d.id, d.keptByBlock, d.receiveTime) := fun q => by rw [List.map_map]; rfl
    have hsub : held p' = held p := by rw [hh, hs.transactions, ← hh]
    exact hp.carries (hsub ▸ List.Subset.refl _) (by rw [hs.rest])
  | expire => exact removeExpired_carries hp
  | restart =>
    exact removeExpired_carries (p := buildIndices env (serialize p))
      (hp.congr (List.Subset.refl _) (List.Subset.refl _))

end Records

variable {s : UInt64 × Pool}

section Refusal

variable {env : Env} {t now start : UInt64} {id : Hash} {p u : Pool} {d : TransactionDetails}

theorem moves_recorded
    (h : Relation.ReflTransGen (Move env) (start, Pool.empty) s) : Recorded s.1 s.2 := by
  induction h with
  | refl =>
    exact ⟨by simp [held, Pool.empty],by simp [records, Pool.empty],by simp [held, Pool.empty]⟩
  | tail _ move ih => exact (move.carries ih).2.1

theorem moves_keep_record (hp : Recorded t p) (h : Relation.ReflTransGen (Move env) (t, p) s)
    (hr : (id, t) ∈ records p) (hnow : s.1.toNat ≤ t.toNat + (period env).toNat) :
    Recorded s.1 s.2 ∧ t ≤ s.1 ∧ (id, t) ∈ records s.2 := by
  induction h with
  | refl => exact ⟨hp,UInt64.le_rfl,hr⟩
  | @tail s s' _ move ih =>
    have hl : s.1.toNat ≤ s'.1.toNat := by
      cases move <;> first | exact Nat.le_refl _ | exact UInt64.le_iff_toNat_le.mp ‹_›
    obtain ⟨hs,hle,hrec⟩ := ih (by omega)
    obtain ⟨hst,hs',hk⟩ := move.carries hs
    have hle' := UInt64.le_trans hle hst
    refine ⟨hs',hle',hk _ hrec ?_⟩
    rw [UInt64.le_iff_toNat_le, UInt64.toNat_sub_of_le _ _ hle']
    omega

theorem expired_recorded (hpe : period env ≤ env.currency.mempoolTxFromAltBlockLiveTime)
    (hp : Recorded t p) (hd : d ∈ p.transactions) (hexp : isExpired env t d = true) :
    (d.id, t) ∈ records (removeExpiredTransactions env t p) := by
  have hrem : Removes env t _ _ (removeExpiredTransactions env t p) :=
    removeExpired_removes p.transactions (forgetDeleted env t p)
  obtain ⟨r,hr,hid⟩ := hrem.noted d hd hexp
  rcases hrem.new r hr with hold | ⟨hnow,-⟩
  · exfalso
    obtain ⟨hold,hy⟩ := List.mem_filter.mp hold
    have hh : (d.id, d.keptByBlock, d.receiveTime) ∈ held p := List.mem_map_of_mem hd
    obtain ⟨hk,hle⟩ : d.keptByBlock = true ∧ r.2 ≤ d.receiveTime := hp.returned _ hh r hold hid
    have hrec : d.receiveTime ≤ t := hp.received _ hh
    simp only [isExpired, hk, if_true, decide_eq_true_eq, gt_iff_lt] at hexp
    rw [UInt64.lt_iff_toNat_lt, UInt64.toNat_sub_of_le _ _ hrec] at hexp
    have hage : t - r.2 ≤ period env := by simpa [period] using hy
    rw [UInt64.le_iff_toNat_le, UInt64.toNat_sub_of_le _ _ (UInt64.le_trans hle hrec)] at hage
    rw [UInt64.le_iff_toNat_le] at hle hpe
    omega
  · exact (Prod.ext hid hnow : r = (d.id, t)) ▸ hr

/-- With the configured times, a transaction that was removed because of its
age is not taken from outside until the record of that removal has run out,
whatever is called in between. -/
theorem expired_refused {q : Pool}
    (hperiod : period env ≤ env.currency.mempoolTxFromAltBlockLiveTime)
    (hbefore : Relation.ReflTransGen (Move env) (start, Pool.empty) (t, p))
    (hd : d ∈ p.transactions) (hexpired : isExpired env t d = true)
    (hremoved : u = removeExpiredTransactions env t p ∨ u = init env t (some (serialize p)))
    (hafter : Relation.ReflTransGen (Move env) (t, u) (now, q))
    (hnow : now.toNat ≤ t.toNat + (period env).toNat) : ∀ m limit tx blobSize result q',
      addTx env now m limit tx d.id blobSize false q = .ok (result, q') → q' = q := by
  rintro m limit tx blobSize ⟨added,tvc⟩ q' hadd
  have hp : Recorded t p := moves_recorded hbefore
  have hu : Recorded t u ∧ (d.id, t) ∈ records u := by
    rcases hremoved with rfl | rfl
    · exact ⟨(removeExpired_carries hp).2.1,expired_recorded hperiod hp hd hexpired⟩
    · have hq : Recorded t (buildIndices env (serialize p)) :=
        hp.congr (List.Subset.refl _) (List.Subset.refl _)
      exact ⟨(removeExpired_carries hq).2.1,expired_recorded hperiod hq hd hexpired⟩
  obtain ⟨-,-,hr⟩ := moves_keep_record hu.1 hafter hu.2 hnow
  rcases addTx_cases hadd with rfl | ⟨e,-,-,-,-,-,hf⟩
  · rfl
  · rcases hf with hk | ⟨-,hn⟩
    · cases hk
    · rw [recentlyDeleted, List.any_eq_false] at hn
      exact absurd BEq.rfl (hn _ hr)

end Refusal

theorem expired_refused_sample : ∃ p, held p = [(5, true, 0)] ∧ ∀ m limit tx blobSize result q',
      addTx sampleEnv 1209601 m limit tx 5 blobSize false
        (removeExpiredTransactions sampleEnv 604801 p) = .ok (result, q') →
      q' = removeExpiredTransactions sampleEnv 604801 p := by
  have hadd : (addTx sampleEnv 0 sampleNode.main 0 ChainKeys.sampleRing 5 0 true
      Pool.empty).toOption.map (fun r => held r.2) = some [(5, true, 0)] := by decide +kernel
  cases hc : addTx sampleEnv 0 sampleNode.main 0 ChainKeys.sampleRing 5 0 true Pool.empty with
  | error _ => simp [hc, Except.toOption] at hadd
  | ok result =>
    obtain ⟨⟨_,_⟩,p⟩ := result
    have hh : held p = [(5, true, 0)] := by simpa [hc, Except.toOption] using hadd
    obtain ⟨_,hd,heq⟩ := List.map_eq_singleton_iff.mp hh
    injection heq with hid hr
    injection hr with hk ht
    refine ⟨p,hh,hid ▸ expired_refused (t := 604801) (by decide)
      (.tail (.single (.add hc)) (.wait (by decide))) (by rw [hd]; simp)
      (by simp [isExpired, hk, ht]; decide) (.inl rfl) (.single (.wait (by decide)))
      (by decide)⟩

end Orbis.ChainExpiry
