import Orbis.WalletContents

/-!
# Transfers and transactions agree

The transactions of the container are sorted by height, and a transaction that
spends a transfer stands behind the one that received it. So a deletion from
the end of this index never removes a transaction of which a spent transfer
remains, and returned transfers are removed when their own transaction comes.
Every transfer stays in one container, next to the transaction it came with.
-/

set_option autoImplicit false

namespace Orbis.WalletLedger

open ListCursor ChainTypes WalletTransfers WalletMoves WalletContents

variable {b : TransactionInformation} {t : Transfer} {lower kept : List TransactionInformation}

variable {T : List TransactionInformation} {hash : Hash} {height hgt : ℕ}

section Index

def Entered (T : List TransactionInformation) (hash : Hash) (height : ℕ) : Prop :=
  ∃ info ∈ T, info.transactionHash = hash ∧ info.blockHeight = height

structure Indexed (T : List TransactionInformation) : Prop where
  sorted : T.Pairwise fun a b => a.blockHeight ≤ b.blockHeight
  distinct : T.Pairwise fun a b => a.transactionHash ≠ b.transactionHash
  bounded : ∀ info ∈ T, info.blockHeight ≤ unconfirmedHeight

variable {info : TransactionInformation}

theorem mem_insertByHeight :
    b ∈ insertByHeight info T ↔ b = info ∨ b ∈ T := List.mem_orderedInsert _

theorem filter_insertByHeight {p : TransactionInformation → Bool} (h : p info = false) :
    (insertByHeight info T).filter p = T.filter p := by
  induction T with
  | nil => exact List.filter_cons_of_neg (Bool.eq_false_iff.mp h)
  | cons _ _ ih =>
    rw [insertByHeight, List.orderedInsert]
    split_ifs
    · exact List.filter_cons_of_neg (Bool.eq_false_iff.mp h)
    · rw [List.filter_cons, List.filter_cons, ← insertByHeight, ih]

theorem pairwise_insertByHeight {R : TransactionInformation → TransactionInformation → Prop}
    (hsrt : T.Pairwise fun a b => a.blockHeight ≤ b.blockHeight) (hT : T.Pairwise R)
    (hbef : ∀ b ∈ T, b.blockHeight ≤ info.blockHeight → R b info)
    (hbeh : ∀ b ∈ T, info.blockHeight < b.blockHeight → R info b) :
    (insertByHeight info T).Pairwise R := by
  induction T with
  | nil => exact List.pairwise_singleton _ _
  | cons b _ ih =>
    obtain ⟨hfst,hsrt⟩ := List.pairwise_cons.mp hsrt
    obtain ⟨hR,hT'⟩ := List.pairwise_cons.mp hT
    rw [insertByHeight, List.orderedInsert]
    by_cases hlt : info.blockHeight < b.blockHeight
    · rw [if_pos hlt]
      apply List.pairwise_cons.mpr
      refine ⟨?_,hT⟩
      intro a ha
      apply hbeh a ha
      rcases List.mem_cons.mp ha with rfl | ha
      · exact hlt
      · exact hlt.trans_le (hfst a ha)
    · rw [if_neg hlt]
      apply List.pairwise_cons.mpr
      constructor
      · intro a ha
        rcases mem_insertByHeight.mp ha with rfl | ha
        · exact hbef b (List.mem_cons_self ..) (Nat.not_lt.mp hlt)
        · exact hR a ha
      · exact ih hsrt hT' (fun a ha => hbef a (List.mem_cons_of_mem _ ha))
          fun a ha => hbeh a (List.mem_cons_of_mem _ ha)

theorem Indexed.unique (h : Indexed T) {a : TransactionInformation} (ha : a ∈ T) (hb : b ∈ T)
    (heq : a.transactionHash = b.transactionHash) : a = b :=
  List.inj_on_of_nodup_map (List.pairwise_map.mpr h.distinct) ha hb heq

theorem Indexed.entered_unique (h : Indexed T) {hgt' : ℕ} (hen : Entered T hash hgt)
    (hen' : Entered T hash hgt') : hgt = hgt' := by
  obtain ⟨_,ha,hh,rfl⟩ := hen
  obtain ⟨_,hb,hh',rfl⟩ := hen'
  rw [h.unique ha hb (hh.trans hh'.symm)]

theorem Indexed.erase (h : Indexed T) :
    T.eraseP (fun info => decide (info.transactionHash = hash)) =
      T.filter fun info => !decide (info.transactionHash = hash) := by
  induction T with
  | nil => rfl
  | cons b T ih =>
    obtain ⟨hfst,hd⟩ := List.pairwise_cons.mp h.distinct
    by_cases hb : b.transactionHash = hash
    · have hr : T.filter (fun info => !decide (info.transactionHash = hash)) = T := by
        apply List.filter_eq_self.mpr
        intro a ha
        rw [decide_eq_false fun heq => hfst a ha (hb.trans heq.symm)]
        rfl
      simp [hb, hr]
    · simp [hb, ih ⟨(List.pairwise_cons.mp h.sorted).2,hd,
        fun a ha => h.bounded a (List.mem_cons_of_mem _ ha)⟩]

theorem Indexed.filter (h : Indexed T) (p : TransactionInformation → Bool) : Indexed (T.filter p) :=
  ⟨h.sorted.filter p,h.distinct.filter p,fun a ha => h.bounded a (List.mem_filter.mp ha).1⟩

theorem Indexed.insert (h : Indexed T) (hnew : ∀ b ∈ T, b.transactionHash ≠ info.transactionHash)
    (hbound : info.blockHeight ≤ unconfirmedHeight) : Indexed (insertByHeight info T) where
  sorted := pairwise_insertByHeight h.sorted h.sorted (fun _ _ hle => hle) fun _ _ hlt => hlt.le
  distinct := pairwise_insertByHeight h.sorted h.distinct (fun b hb _ => hnew b hb)
    fun b hb _ => (hnew b hb).symm
  bounded := by
    intro b hb
    rcases mem_insertByHeight.mp hb with rfl | hb
    · exact hbound
    · exact h.bounded b hb

theorem ne_of_not_decide {a b : Hash} (h : (!decide (a = b)) = true) : a ≠ b := by
  intro heq
  rw [decide_eq_true heq] at h
  cases h

theorem entered_filter (h : Entered T hash hgt) {o : Hash} (hne : hash ≠ o) :
    Entered (T.filter fun info => !decide (info.transactionHash = o)) hash hgt := by
  obtain ⟨a,ha,rfl,rfl⟩ := h
  refine ⟨a,List.mem_filter.mpr ⟨ha,?_⟩,rfl,rfl⟩
  rw [decide_eq_false hne]
  rfl

theorem entered_insert (h : Entered T hash hgt) : Entered (insertByHeight info T) hash hgt := by
  obtain ⟨a,ha,hh,hheight⟩ := h
  exact ⟨a,mem_insertByHeight.mpr (.inr ha),hh,hheight⟩

theorem entered_new {blk : TransactionBlockInfo} {tx : TransactionReader} :
    Entered (insertByHeight (transactionInformation blk tx) T) tx.transactionHash blk.height :=
  ⟨transactionInformation blk tx,mem_insertByHeight.mpr (.inl rfl),rfl,rfl⟩

end Index

variable {u : Transfer} {new : List Transfer} {I : Transfers → Prop}
  {P : List TransactionOutputInformationIn → Prop}

section Books

def holdings (g : Transfers) : List Transfer := g.available ++ g.spent.map SpentTransfer.output

def Apart (t u : Transfer) : Prop :=
  ¬ Clash t.toTransactionOutputInformationIn u.toTransactionOutputInformationIn

structure Books (T : List TransactionInformation) (g : Transfers) : Prop where
  indexed : Indexed T
  unconfirmed : ∀ t ∈ g.unconfirmed,
    t.blockHeight = unconfirmedHeight ∧ Entered T t.transactionHash unconfirmedHeight
  held : ∀ t ∈ holdings g,
    t.blockHeight ≠ unconfirmedHeight ∧ Entered T t.transactionHash t.blockHeight
  spending : ∀ p ∈ g.spent, Entered T p.spendingTransactionHash p.spendingBlock.height
  behind : T.Pairwise fun a b => ∀ p ∈ g.spent,
    p.spendingTransactionHash = a.transactionHash → p.output.transactionHash ≠ b.transactionHash
  apart : (holdings g).Pairwise Apart
  spentOnce : g.spent.Pairwise fun p q => p.output.descriptor ≠ q.output.descriptor

variable {g g' : Transfers}

theorem kind_of_descriptor {t : TransactionOutputInformationIn} {amt : UInt64} {idx : ℕ}
    (h : t.descriptor = .multisignature amt idx) : ∃ m, t.kind = .multisignature m := by
  unfold TransactionOutputInformationIn.descriptor at h
  cases hk : t.kind with
  | key _ _ =>
    rw [hk] at h
    cases h
  | multisignature m => exact ⟨m,rfl⟩

theorem clash_symm {t u : TransactionOutputInformationIn} (h : Clash t u) : Clash u t := by
  obtain ⟨⟨_,hm⟩,heq⟩ := h
  have hu : u.descriptor = .multisignature u.amount u.globalOutputIndex := by
    unfold TransactionOutputInformationIn.descriptor
    rw [hm]
  exact ⟨kind_of_descriptor (heq.trans hu),heq.symm⟩

theorem Apart.symm (h : Apart t u) : Apart u t :=
  fun hcsh => h (clash_symm hcsh)

theorem Books.mem_transaction (h : Books T g) (ht : t ∈ g.unconfirmed ∨ t ∈ holdings g)
    : Entered T t.transactionHash t.blockHeight := by
  rcases ht with ht | ht
  · obtain ⟨hheight,hen⟩ := h.unconfirmed t ht
    rw [hheight]
    exact hen
  · exact (h.held t ht).2

theorem mem_available (h : t ∈ g.available) : t ∈ holdings g :=
  List.mem_append_left _ h

theorem mem_spent {p : SpentTransfer} (h : p ∈ g.spent) : p.output ∈ holdings g :=
  List.mem_append_right _ (List.mem_map_of_mem h)

theorem core_holdings {s : Transfers} (h : t ∈ holdings s) : core t ∈ holdings (contents s) := by
  rcases List.mem_append.mp h with h | h
  · exact mem_available (List.mem_map_of_mem h)
  · obtain ⟨_,hp,rfl⟩ := List.mem_map.mp h
    exact mem_spent (g := contents s) (List.mem_map_of_mem hp)

def Releasable (hash : Hash) (g : Transfers) : Prop :=
  ∀ p ∈ g.spent, p.output.transactionHash = hash → p.spendingTransactionHash = hash

theorem holdings_deleted (h : Releasable hash g) : (holdings (deleted hash g)).Perm
      ((holdings g).filter fun t => !decide (t.transactionHash = hash)) := by
  have hk : (((deleted hash g).spent.map SpentTransfer.output).filter
      fun t => !decide (t.transactionHash = hash)) =
      (deleted hash g).spent.map SpentTransfer.output := by
    apply List.filter_eq_self.mpr
    refine List.forall_mem_map.mpr ?_
    intro p hp
    obtain ⟨hp,hne⟩ := List.mem_filter.mp hp
    have hoth : p.output.transactionHash ≠ hash := by
      intro heq
      rw [decide_eq_true (h p hp heq)] at hne
      cases hne
    rw [decide_eq_false hoth]
    rfl
  have hall : (g.spent.filter (fun p => decide (p.spendingTransactionHash = hash)) ++
      (deleted hash g).spent).Perm g.spent := List.filter_append_perm _ _
  unfold holdings
  rw [← hk]
  unfold deleted at hall ⊢
  dsimp only at hall ⊢
  rw [← List.filter_append, List.append_assoc, ← List.map_append]
  exact ((hall.map _).append_left _).filter _

theorem Books.delete (h : Books T g) (hrel : Releasable hash g) :
    Books (T.filter fun info => !decide (info.transactionHash = hash)) (deleted hash g) := by
  have hh : ∀ t ∈ holdings (deleted hash g), t ∈ holdings g ∧ t.transactionHash ≠ hash := by
    intro t ht
    obtain ⟨ht,hne⟩ := List.mem_filter.mp ((holdings_deleted hrel).mem_iff.mp ht)
    exact ⟨ht,ne_of_not_decide hne⟩
  have hsp : ∀ p ∈ (deleted hash g).spent, p ∈ g.spent ∧ p.spendingTransactionHash ≠ hash := by
    intro p hp
    obtain ⟨hp,hne⟩ := List.mem_filter.mp hp
    exact ⟨hp,ne_of_not_decide hne⟩
  refine ⟨h.indexed.filter _,?_,?_,?_,?_,?_,h.spentOnce.filter _⟩
  · intro t ht
    obtain ⟨ht,hne⟩ := List.mem_filter.mp ht
    obtain ⟨hheight,hen⟩ := h.unconfirmed t ht
    exact ⟨hheight,entered_filter hen (ne_of_not_decide hne)⟩
  · intro t ht
    obtain ⟨ht,hne⟩ := hh t ht
    obtain ⟨hheight,hen⟩ := h.held t ht
    exact ⟨hheight,entered_filter hen hne⟩
  · intro p hp
    obtain ⟨hp,hne⟩ := hsp p hp
    exact entered_filter (h.spending p hp) hne
  · apply (h.behind.filter _).imp
    intro a b hab p hp
    exact hab p (hsp p hp).1
  · exact (holdings_deleted hrel).symm.pairwise (h.apart.filter _) Apart.symm

section Reception

variable {block : TransactionBlockInfo} {tx : TransactionReader}
  {transfers : List TransactionOutputInformationIn}

theorem holdings_gain :
    (holdings { g with available := g.available ++ new }).Perm (holdings g ++ new) := by
  unfold holdings
  dsimp only
  rw [List.append_assoc, List.append_assoc]
  exact List.perm_append_comm.append_left _

theorem Books.gain (h : Books T g) (hh : ∀ t ∈ new, t.blockHeight ≠ unconfirmedHeight ∧
      Entered T t.transactionHash t.blockHeight) (hnew : new.Pairwise Apart)
    (ha : ∀ t ∈ holdings g, ∀ u ∈ new, Apart t u) :
    Books T { g with available := g.available ++ new } := by
  refine ⟨h.indexed,h.unconfirmed,?_,h.spending,h.behind,?_,h.spentOnce⟩
  · intro t ht
    rcases List.mem_append.mp (holdings_gain.mem_iff.mp ht) with ht | ht
    · exact h.held t ht
    · exact hh t ht
  · apply holdings_gain.symm.pairwise _ Apart.symm
    exact List.pairwise_append.mpr ⟨h.apart,hnew,ha⟩

theorem not_clash (h : g.exists u.toTransactionOutputInformationIn = false)
    (ht : t ∈ holdings g) : Apart t u := by
  intro hcsh
  apply Bool.eq_false_iff.mp h
  rw [exists_iff]
  refine ⟨hcsh.1,?_⟩
  rcases List.mem_append.mp ht with ht | ht
  · exact .inl ⟨t,ht,hcsh.2⟩
  · obtain ⟨p,hp,rfl⟩ := List.mem_map.mp ht
    exact .inr ⟨p,hp,hcsh.2⟩

theorem Books.receive (h : Books T g) (hfit : AllFit g block transfers)
    (hen : Entered T tx.transactionHash block.height) :
    Books T (received block tx transfers g) := by
  unfold received
  split_ifs with hblk
  · refine ⟨h.indexed,?_,h.held,h.spending,h.behind,h.apart,h.spentOnce⟩
    intro t ht
    rcases List.mem_append.mp ht with ht | ht
    · exact h.unconfirmed t ht
    · obtain ⟨u,-,rfl⟩ := List.mem_map.mp ht
      rw [hblk] at hen
      exact ⟨hblk,hen⟩
  · have hfr := hfit.fresh hblk
    apply h.gain
    · refine List.forall_mem_map.mpr ?_
      exact fun _ _ => ⟨hblk,hen⟩
    · exact List.pairwise_map.mpr hfr.apart
    · intro t ht
      refine List.forall_mem_map.mpr ?_
      intro u hu
      exact not_clash (u := core (stored block tx u)) (hfr.unknown u hu) ht

end Reception

section Spending

variable {block : TransactionBlockInfo} {cur : Cursor Transfer} {inp : TransactionInput}
  {i : ℕ}

def Last (T : List TransactionInformation) (hash : Hash) : Prop :=
  T.Pairwise fun a b => a.transactionHash = hash → b.blockHeight = unconfirmedHeight

theorem copyToSpent_new (blk : TransactionBlockInfo) (hash : Hash) (i : ℕ) (h : Books T g)
    (hl : cur.list = g.available) (hch : Chosen g cur inp) :
    (∀ q ∈ g.spent, q.output.descriptor ≠ cur.item.descriptor) ∧
      copyToSpent g.spent ⟨cur.item, blk, hash, i⟩ = g.spent ++ [⟨cur.item, blk, hash, i⟩] := by
  have hnew : ∀ q ∈ g.spent, q.output.descriptor ≠ cur.item.descriptor := by
    intro q hq heq
    cases inp with
    | base _ => exact hch
    | key _ _ ki =>
      obtain ⟨hsp,hlds⟩ := hch
      have hfor : cur.item.isFor ki = true := (Bool.and_eq_true_iff.mp hlds.holds).1
      exact Bool.eq_false_iff.mp (hsp q hq) (isFor_of_descriptor heq hfor)
    | multisignature _ _ _ =>
      have hi : cur.item ∈ g.available := hl ▸ cur.item_mem
      have ha := (List.pairwise_append.mp h.apart).2.2 cur.item hi q.output (List.mem_map_of_mem hq)
      exact ha ⟨kind_of_descriptor (heq.trans hch.1),heq.symm⟩
  exact ⟨hnew,copyToSpent_append hnew⟩

theorem holdings_spend (blk : TransactionBlockInfo) (hash : Hash) (i : ℕ) (h : Books T g)
    (hl : cur.list = g.available) (hch : Chosen g cur inp) :
    (holdings { g with
      available := cur.erase
      spent := copyToSpent g.spent ⟨cur.item, blk, hash, i⟩ }).Perm (holdings g) := by
  rw [(copyToSpent_new blk hash i h hl hch).2]
  unfold holdings
  dsimp only
  rw [← hl, List.map_append, ← List.append_assoc]
  exact (List.perm_append_singleton _ _).trans (cur.perm_list.symm.append_right _)

theorem Books.spend (h : Books T g) (hl : cur.list = g.available)
    (hch : Chosen g cur inp) (hen : Entered T hash block.height) (hla : Last T hash)
    :
    Books T { g with
      available := cur.erase
      spent := copyToSpent g.spent ⟨cur.item, block, hash, i⟩ } := by
  have hpe := holdings_spend block hash i h hl hch
  obtain ⟨hnew,hc⟩ := copyToSpent_new block hash i h hl hch
  have hi : cur.item ∈ holdings g := mem_available (hl ▸ cur.item_mem)
  rw [hc] at hpe ⊢
  refine ⟨h.indexed,h.unconfirmed,?_,?_,?_,?_,?_⟩
  · intro t ht
    exact h.held t (hpe.mem_iff.mp ht)
  · intro p hp
    rcases List.mem_append.mp hp with hp | hp
    · exact h.spending p hp
    · rw [List.mem_singleton.mp hp]
      exact hen
  · apply (h.behind.and hla).imp_of_mem
    rintro a b - hb ⟨hbeh,hla⟩ p hp
    rcases List.mem_append.mp hp with hp | hp
    · exact hbeh p hp
    · rw [List.mem_singleton.mp hp]
      intro ha hs
      obtain ⟨hheight,hh⟩ := h.held cur.item hi
      exact hheight (h.indexed.entered_unique hh ⟨b,hb,hs.symm,hla ha.symm⟩)
  · exact hpe.symm.pairwise h.apart Apart.symm
  · apply List.pairwise_append.mpr
    refine ⟨h.spentOnce,List.pairwise_singleton _ _,?_⟩
    intro p hp q hq
    rw [List.mem_singleton.mp hq]
    exact hnew p hp

theorem Books.spendAll {ins : List TransactionInput} {added : Bool}
    (hrun : Spending block hash i ins g added g') (h : Books T g)
    (hen : Entered T hash block.height) (hl : Last T hash) : Books T g' := by
  induction hrun with
  | done _ _ => exact h
  | foreign _ _ ih => exact ih h
  | spend hli hch _ ih => exact ih (h.spend hli hch hen hl)

end Spending

section Additions

variable {block : TransactionBlockInfo} {tx : TransactionReader}
  {transfers : List TransactionOutputInformationIn} {info : TransactionInformation}

def Follows (T : List TransactionInformation) (height : ℕ) : Prop :=
  ∀ info ∈ T, info.blockHeight ≠ unconfirmedHeight → info.blockHeight ≤ height

theorem Follows.behind (h : Follows T block.height) (hinfo : info ∈ T)
    (hlt : block.height < info.blockHeight) : info.blockHeight = unconfirmedHeight := by
  by_contra hne
  exact absurd (h info hinfo hne) (Nat.not_le.mpr hlt)

theorem Books.insert (h : Books T g) (hnew : ∀ b ∈ T, b.transactionHash ≠ info.transactionHash)
    (hbound : info.blockHeight ≤ unconfirmedHeight) : Books (insertByHeight info T) g := by
  have hoth : ∀ {hash : Hash} {hgt : ℕ}, Entered T hash hgt → hash ≠ info.transactionHash := by
    rintro hash hgt ⟨b,hb,rfl,-⟩
    exact hnew b hb
  refine ⟨h.indexed.insert hnew hbound,?_,?_,?_,?_,h.apart,h.spentOnce⟩
  · intro t ht
    obtain ⟨hheight,hen⟩ := h.unconfirmed t ht
    exact ⟨hheight,entered_insert hen⟩
  · intro t ht
    obtain ⟨hheight,hen⟩ := h.held t ht
    exact ⟨hheight,entered_insert hen⟩
  · exact fun p hp => entered_insert (h.spending p hp)
  · apply pairwise_insertByHeight h.indexed.sorted h.behind
    · intro b _ _ p hp _
      exact hoth (h.held _ (mem_spent hp)).2
    · intro b _ _ p hp hspg
      exact absurd hspg (hoth (h.spending p hp))

theorem last_insert (h : Indexed T) (hnew : ∀ b ∈ T, b.transactionHash ≠ info.transactionHash)
    (hbeh : ∀ b ∈ T, info.blockHeight < b.blockHeight → b.blockHeight = unconfirmedHeight) :
    Last (insertByHeight info T) info.transactionHash := by
  apply pairwise_insertByHeight h.sorted
  · refine h.distinct.imp_of_mem ?_
    intro a b ha _ _ heq
    exact absurd heq (hnew a ha)
  · intro b hb _ heq
    exact absurd heq (hnew b hb)
  · intro b hb hlt _
    exact hbeh b hb hlt

end Additions

section Confirmations

variable {block : TransactionBlockInfo} {gi : List ℕ} {info : TransactionInformation}

theorem Books.held_other (h : Books T g) (hen : Entered T hash unconfirmedHeight)
    (ht : t ∈ holdings g) : t.transactionHash ≠ hash := by
  rintro rfl
  obtain ⟨hheight,hh⟩ := h.held t ht
  exact hheight (h.indexed.entered_unique hh hen)

theorem holdings_respend {unconfirmed : List Transfer} :
    holdings ⟨unconfirmed, g.available, g.spent.map (SpentTransfer.respend block hash)⟩ =
      holdings g := by
  unfold holdings
  dsimp only
  rw [List.map_map]
  congr 1
  apply List.map_congr_left
  intro p _
  exact respend_output block hash p

section

variable (h : Books T g) (hbound : block.height ≤ unconfirmedHeight)
  (hfollows : Follows T block.height) (hinfo : info ∈ T)
  (hheight : info.blockHeight = unconfirmedHeight)

include h hbound hfollows hinfo hheight

theorem Books.settle : Books (replaceTransaction (info.confirmed block) T)
    { unconfirmed := g.unconfirmed.filter fun t =>
        !decide (t.transactionHash = info.transactionHash)
      available := g.available
      spent := g.spent.map (SpentTransfer.respend block info.transactionHash) } := by
  have hera : T.eraseP (fun o => decide (o.transactionHash =
      (info.confirmed block).transactionHash)) =
      T.filter fun o => !decide (o.transactionHash = info.transactionHash) :=
    h.indexed.erase
  have hixd := h.indexed.filter fun o => !decide (o.transactionHash = info.transactionHash)
  have hnew : ∀ b ∈ T.filter (fun o => !decide (o.transactionHash = info.transactionHash)),
      b.transactionHash ≠ (info.confirmed block).transactionHash := by
    intro b hb
    exact ne_of_not_decide (List.mem_filter.mp hb).2
  have hw : Entered T info.transactionHash unconfirmedHeight := ⟨info,hinfo,rfl,hheight⟩
  have hk : ∀ {hash : Hash} {hgt : ℕ}, Entered T hash hgt → hash ≠ info.transactionHash →
      Entered (replaceTransaction (info.confirmed block) T) hash hgt := by
    intro hash hgt hen hne
    rw [replaceTransaction, hera]
    exact entered_insert (entered_filter hen hne)
  have hsp : ∀ p ∈ g.spent, p.output.transactionHash ≠ info.transactionHash :=
    fun p hp => h.held_other hw (mem_spent hp)
  refine ⟨?_,?_,?_,?_,?_,?_,?_⟩
  · rw [replaceTransaction, hera]
    exact hixd.insert hnew hbound
  · intro t ht
    obtain ⟨ht,hne⟩ := List.mem_filter.mp ht
    obtain ⟨hheight,hen⟩ := h.unconfirmed t ht
    exact ⟨hheight,hk hen (ne_of_not_decide hne)⟩
  · rw [holdings_respend]
    intro t ht
    obtain ⟨hheight,hen⟩ := h.held t ht
    exact ⟨hheight,hk hen (h.held_other hw ht)⟩
  · refine List.forall_mem_map.mpr ?_
    intro p hp
    unfold SpentTransfer.respend
    by_cases heq : p.spendingTransactionHash = info.transactionHash
    · rw [if_pos heq]
      refine ⟨info.confirmed block,?_,heq.symm,rfl⟩
      exact mem_insertByHeight.mpr (.inl rfl)
    · rw [if_neg heq]
      exact hk (h.spending p hp) heq
  · rw [replaceTransaction, hera]
    apply pairwise_insertByHeight hixd.sorted
    · apply (h.behind.filter _).imp
      intro a b hab
      refine List.forall_mem_map.mpr ?_
      intro p hp
      rw [respend_spending, respend_output]
      exact hab p hp
    · intro b _ _
      refine List.forall_mem_map.mpr ?_
      intro p hp _
      rw [respend_output]
      exact hsp p hp
    · intro b hb hlt
      have hb := (List.mem_filter.mp hb).1
      refine List.forall_mem_map.mpr ?_
      intro p hp _
      rw [respend_output]
      exact h.held_other ⟨b,hb,rfl,hfollows.behind hb hlt⟩ (mem_spent hp)
  · rw [holdings_respend]
    exact h.apart
  · apply List.pairwise_map.mpr
    apply h.spentOnce.imp
    intro p q hpq
    rw [respend_output, respend_output]
    exact hpq

theorem Books.mark (hblk : block.height ≠ unconfirmedHeight)
    (hcf : AllConfirm block info.transactionHash gi g) :
    Books (replaceTransaction (info.confirmed block) T)
      (marked block info.transactionHash gi g) := by
  have hset := h.settle hbound hfollows hinfo hheight
  apply hset.gain
  · refine List.forall_mem_map.mpr ?_
    intro t ht
    have hh : t.transactionHash = info.transactionHash :=
      of_decide_eq_true (List.mem_filter.mp ht).2
    exact ⟨hblk,info.confirmed block,mem_insertByHeight.mpr (.inl rfl),hh.symm,rfl⟩
  · have ha := List.pairwise_map.mp hcf.fresh.apart
    exact List.pairwise_map.mpr ha
  · intro t ht
    refine List.forall_mem_map.mpr ?_
    intro u hu
    rw [holdings_respend] at ht
    exact not_clash (hcf.fresh.unknown _ (List.mem_map_of_mem hu)) ht

end

end Confirmations

end Books

section Detachment

def remains (height : ℕ) (g : Transfers) (info : TransactionInformation) : Bool :=
  if info.blockHeight = unconfirmedHeight then
    !g.spent.any fun p => decide (p.spendingTransactionHash = info.transactionHash ∧
      height ≤ p.output.blockHeight)
  else decide (info.blockHeight < height)

variable {g : Transfers} {info : TransactionInformation} {c : TransfersContainer}

theorem remains_deleted (h : info.transactionHash ≠ hash) :
    remains hgt (deleted hash g) info = remains hgt g info := by
  unfold remains
  split_ifs
  · congr 1
    apply Bool.eq_iff_iff.mpr
    rw [List.any_eq_true, List.any_eq_true]
    constructor
    · rintro ⟨p,hp,hsps⟩
      exact ⟨p,(List.mem_filter.mp hp).1,hsps⟩
    · rintro ⟨p,hp,hsps⟩
      refine ⟨p,List.mem_filter.mpr ⟨hp,?_⟩,hsps⟩
      rw [(of_decide_eq_true hsps).1, decide_eq_false h]
      rfl
  · rfl

theorem Books.releasable_unconfirmed (h : Books T g) (hinfo : info ∈ T)
    (hheight : info.blockHeight = unconfirmedHeight) : Releasable info.transactionHash g := by
  intro p hp hs
  exact absurd hs (h.held_other ⟨info,hinfo,rfl,hheight⟩ (mem_spent hp))

theorem Books.releasable_last (h : Books (lower ++ info :: kept) g)
    (hheight : hgt ≤ info.blockHeight)
    (hk : ∀ k ∈ kept, k.blockHeight = unconfirmedHeight ∧ remains hgt g k = true) :
    Releasable info.transactionHash g := by
  intro p hp hs
  obtain ⟨a,ha,hspg,-⟩ := h.spending p hp
  obtain ⟨-,hh⟩ := h.held _ (mem_spent hp)
  have hlvl : p.output.blockHeight = info.blockHeight :=
    h.indexed.entered_unique hh ⟨info,by simp,hs.symm,rfl⟩
  rcases List.mem_append.mp ha with ha | ha
  · have hbeh := (List.pairwise_append.mp h.behind).2.2 a ha info (List.mem_cons_self ..)
    exact absurd hs (hbeh p hp hspg.symm)
  · rcases List.mem_cons.mp ha with rfl | ha
    · exact hspg.symm
    · obtain ⟨hunc,hrem⟩ := hk a ha
      rw [remains, if_pos hunc, Bool.not_eq_true', List.any_eq_false] at hrem
      have hnot := hrem p hp
      rw [decide_eq_true_eq] at hnot
      exact absurd ⟨hspg.symm,hlvl ▸ hheight⟩ hnot

theorem any_contents {s : Transfers} :
    (s.spent.any fun p => decide (p.spendingTransactionHash = hash ∧ hgt ≤ p.output.blockHeight)) =
    (contents s).spent.any fun p => decide (p.spendingTransactionHash = hash ∧
      hgt ≤ p.output.blockHeight) := by
  unfold contents
  rw [List.any_map]
  rfl

theorem deleteTransaction_books (h : Books c.transactions (contents c.toTransfers))
    (hrel : Releasable hash (contents c.toTransfers)) :
    Books (c.deleteTransaction hash).transactions
      (contents (c.deleteTransaction hash).toTransfers) := by
  have hdel := h.delete hrel
  rw [← h.indexed.erase, ← deleteTransactionTransfers_contents] at hdel
  exact hdel

theorem deleteTransaction_middle (ht : ℕ) (h : Indexed c.transactions)
    (hspl : c.transactions = lower ++ info :: kept) :
    (c.deleteTransaction info.transactionHash).transactions = lower ++ kept ∧
      ∀ k ∈ lower ++ kept, remains ht
        (contents (c.deleteTransaction info.transactionHash).toTransfers) k =
          remains ht (contents c.toTransfers) k := by
  have hoth : ∀ k ∈ lower ++ kept, k.transactionHash ≠ info.transactionHash := by
    have hd := h.distinct
    rw [hspl] at hd
    have hfst := (List.perm_middle.pairwise hd fun hne => hne.symm)
    exact fun k hk => ((List.pairwise_cons.mp hfst).1 k hk).symm
  constructor
  · show c.transactions.eraseP _ = _
    rw [h.erase, hspl, List.filter_append, List.filter_cons_of_neg (by simp), ← List.filter_append]
    apply List.filter_eq_self.mpr
    intro k hk
    rw [decide_eq_false (hoth k hk)]
    rfl
  · intro k hk
    show remains ht (contents (c.toTransfers.deleteTransactionTransfers _)) k = _
    rw [deleteTransactionTransfers_contents]
    exact remains_deleted (hoth k hk)

theorem detachFrom_cons :
    detachFrom hgt (info :: lower) c =
      if remains hgt (contents c.toTransfers) info then
        if info.blockHeight = unconfirmedHeight then detachFrom hgt lower c else ([], c)
      else Prod.map (List.cons info.transactionHash) id
        (detachFrom hgt lower (c.deleteTransaction info.transactionHash)) := by
  rw [detachFrom, remains]
  by_cases hunc : info.blockHeight = unconfirmedHeight
  · rw [if_pos hunc, if_pos hunc, if_pos hunc, any_contents]
    cases (contents c.toTransfers).spent.any fun p =>
      decide (p.spendingTransactionHash = info.transactionHash ∧ hgt ≤ p.output.blockHeight) <;>
    rfl
  · rw [if_neg hunc, if_neg hunc, if_neg hunc]
    by_cases hheight : hgt ≤ info.blockHeight
    · rw [if_pos hheight, decide_eq_false (Nat.not_lt.mpr hheight), if_neg Bool.false_ne_true]
    · rw [if_neg hheight, decide_eq_true (Nat.not_le.mp hheight), if_pos rfl]

theorem Indexed.remains_below (h : Indexed (lower ++ info :: kept))
    (hcfd : info.blockHeight ≠ unconfirmedHeight) (hrem : remains hgt g info = true)
    (hb : b ∈ lower) : remains hgt g b = true := by
  have hlvl : info.blockHeight < hgt := by
    rw [remains, if_neg hcfd] at hrem
    exact of_decide_eq_true hrem
  have hbound := h.bounded info (by simp)
  have hle := (List.pairwise_append.mp h.sorted).2.2 b hb info (List.mem_cons_self ..)
  rw [remains, if_neg (by omega)]
  exact decide_eq_true (by omega)

theorem detachFrom_books {l : List TransactionInformation}
    (hI : ∀ info ∈ l, remains hgt (contents c.toTransfers) info = false → ∀ g,
      Releasable info.transactionHash g → I g → I (deleted info.transactionHash g))
    (hst : I (contents c.toTransfers)) (h : Books c.transactions (contents c.toTransfers))
    (hT : c.transactions = l.reverse ++ kept) (hke : ∀ k ∈ kept, k.blockHeight = unconfirmedHeight ∧
      remains hgt (contents c.toTransfers) k = true) :
    I (contents (detachFrom hgt l c).2.toTransfers) ∧ Books (detachFrom hgt l c).2.transactions
        (contents (detachFrom hgt l c).2.toTransfers) ∧ (detachFrom hgt l c).2.transactions =
        c.transactions.filter (remains hgt (contents c.toTransfers)) ∧
      (detachFrom hgt l c).1 = (l.filter fun info => !remains hgt (contents c.toTransfers) info).map
          TransactionInformation.transactionHash := by
  induction l generalizing c kept with
  | nil =>
    refine ⟨hst,h,?_,rfl⟩
    symm
    apply List.filter_eq_self.mpr
    rw [hT]
    exact fun k hk => (hke k hk).2
  | cons info lower ih =>
    obtain ⟨hI,hlw⟩ := List.forall_mem_cons.mp hI
    have hspl : c.transactions = lower.reverse ++ info :: kept := by
      rw [hT, List.reverse_cons, List.append_assoc]
      rfl
    rw [detachFrom_cons]
    by_cases hrem : remains hgt (contents c.toTransfers) info = true
    · rw [if_pos hrem]
      have hn : ((info :: lower).filter fun info =>
          !remains hgt (contents c.toTransfers) info) = lower.filter fun info =>
          !remains hgt (contents c.toTransfers) info := by
        apply List.filter_cons_of_neg
        rw [hrem]
        exact Bool.false_ne_true
      rw [hn]
      by_cases hunc : info.blockHeight = unconfirmedHeight
      · rw [if_pos hunc]
        exact ih hlw hst h hspl (List.forall_mem_cons.mpr ⟨⟨hunc,hrem⟩,hke⟩)
      · -- the transactions below are lower still
        rw [if_neg hunc]
        have hbel : ∀ b ∈ lower, remains hgt (contents c.toTransfers) b = true := by
          intro b hb
          have hixd := h.indexed
          rw [hspl] at hixd
          exact hixd.remains_below hunc hrem (List.mem_reverse.mpr hb)
        refine ⟨hst,h,?_,?_⟩
        · symm
          apply List.filter_eq_self.mpr
          rw [hspl]
          intro b hb
          rcases List.mem_append.mp hb with hb | hb
          · exact hbel b (List.mem_reverse.mp hb)
          · rcases List.mem_cons.mp hb with rfl | hb
            · exact hrem
            · exact (hke b hb).2
        · symm
          rw [List.filter_eq_nil_iff.mpr]
          · rfl
          · intro b hb
            rw [hbel b hb]
            exact Bool.false_ne_true
    · rw [if_neg hrem]
      have hnot := Bool.eq_false_iff.mpr hrem
      have hrel : Releasable info.transactionHash (contents c.toTransfers) := by
        by_cases hunc : info.blockHeight = unconfirmedHeight
        · exact h.releasable_unconfirmed (by rw [hspl]; simp) hunc
        · rw [remains, if_neg hunc, decide_eq_false_iff_not, Nat.not_lt] at hnot
          rw [hspl] at h
          exact h.releasable_last hnot hke
      obtain ⟨hmid,hs⟩ := deleteTransaction_middle hgt h.indexed hspl
      have hlat : ∀ b ∈ lower,
          remains hgt (contents (c.deleteTransaction info.transactionHash).toTransfers) b =
            remains hgt (contents c.toTransfers) b :=
        fun b hb => hs b (List.mem_append_left _ (List.mem_reverse.mpr hb))
      have hn : I (contents (c.deleteTransaction info.transactionHash).toTransfers) := by
        show I (contents (c.toTransfers.deleteTransactionTransfers info.transactionHash))
        rw [deleteTransactionTransfers_contents]
        exact hI hnot _ hrel hst
      obtain ⟨hend,hbks,hl,hrmd⟩ := ih (fun b hb hb' => hlw b hb ((hlat b hb).symm.trans hb')) hn
        (deleteTransaction_books h hrel) hmid (by
          intro k hk
          rw [hs k (List.mem_append_right _ hk)]
          exact hke k hk)
      refine ⟨hend,hbks,?_,?_⟩
      · show (detachFrom hgt lower (c.deleteTransaction info.transactionHash)).2.transactions = _
        rw [hl, hmid, List.filter_congr hs, hspl, List.filter_append, List.filter_append,
          List.filter_cons_of_neg hrem]
      · show info.transactionHash ::
          (detachFrom hgt lower (c.deleteTransaction info.transactionHash)).1 = _
        rw [hrmd, List.filter_congr fun b hb => congrArg Bool.not (hlat b hb),
          List.filter_cons_of_pos (by rw [hnot]; rfl)]
        rfl

theorem detach_books (ht : ℕ)
    (hI : ∀ info ∈ c.transactions, remains ht (contents c.toTransfers) info = false → ∀ g,
      Releasable info.transactionHash g → I g → I (deleted info.transactionHash g))
    (hst : I (contents c.toTransfers)) (h : Books c.transactions (contents c.toTransfers)) :
    I (contents (c.detach ht).2.toTransfers) ∧
      Books (c.detach ht).2.transactions (contents (c.detach ht).2.toTransfers) ∧
      (c.detach ht).2.transactions = c.transactions.filter (remains ht (contents c.toTransfers)) ∧
      (c.detach ht).1 = (c.transactions.reverse.filter fun info =>
        !remains ht (contents c.toTransfers) info).map TransactionInformation.transactionHash := by
  have hT : c.transactions = c.transactions.reverse.reverse ++ [] := by simp
  exact detachFrom_books (fun info hinfo => hI info (List.mem_reverse.mp hinfo)) hst h hT
    fun _ hk => (List.not_mem_nil hk).elim

end Detachment

section Sessions

/-- The containers that calls following the heights of blocks can reach, where
every call returns and `P` is what the caller promises of the outputs. -/
inductive Session (P : List TransactionOutputInformationIn → Prop) : TransfersContainer → Prop
  | empty : Session P .empty
  | add {c c' : TransfersContainer} {block : TransactionBlockInfo} {tx : TransactionReader}
      {transfers : List TransactionOutputInformationIn} {added : Bool} (run : Session P c)
      (bound : block.height ≤ unconfirmedHeight)
      (follows : block.height ≠ unconfirmedHeight → Follows c.transactions block.height)
      (listed : P transfers)
      (done : addTransaction block tx transfers c = .ok added c') : Session P c'
  | mark {c c' : TransfersContainer} {block : TransactionBlockInfo} {hash : Hash}
      {globalIndices : List ℕ} {found : Bool} (run : Session P c)
      (bound : block.height ≤ unconfirmedHeight) (follows : Follows c.transactions block.height)
      (done : markTransactionConfirmed block hash globalIndices c = .ok found c') : Session P c'
  | delete {c : TransfersContainer} (run : Session P c) (hash : Hash) :
      Session P (c.deleteUnconfirmedTransaction hash).2
  | detach {c : TransfersContainer} (run : Session P c) (height : ℕ) : Session P (c.detach height).2
  | advance {c : TransfersContainer} (run : Session P c) (height : ℕ) :
      Session P (c.advanceHeight height).2

abbrev AnySession : TransfersContainer → Prop := Session fun _ => True

variable {c c' : TransfersContainer} {block : TransactionBlockInfo} {tx : TransactionReader}
  {transfers : List TransactionOutputInformationIn} {added : Bool}

theorem transaction_none : c.transaction hash = none ↔
    ∀ info ∈ c.transactions, info.transactionHash ≠ hash := by
  rw [TransfersContainer.transaction, List.find?_eq_none]
  simp

theorem transaction_some {info : TransactionInformation} (h : c.transaction hash = some info) :
    info ∈ c.transactions ∧ info.transactionHash = hash := by
  have hfd : decide (info.transactionHash = hash) = true := List.find?_some
      (p := fun info : TransactionInformation => decide (info.transactionHash = hash)) h
  exact ⟨List.mem_of_find?_eq_some h,of_decide_eq_true hfd⟩

theorem transaction_entered (h : Indexed c.transactions) {ht : ℕ} : Entered c.transactions hash ht ↔
      ∃ info, c.transaction hash = some info ∧ info.blockHeight = ht := by
  constructor
  · rintro ⟨info,hinfo,hh,hheight⟩
    cases hf : c.transaction hash with
    | none => exact absurd hh (transaction_none.mp hf info hinfo)
    | some o =>
      obtain ⟨hoth,hs⟩ := transaction_some hf
      refine ⟨o,rfl,?_⟩
      rw [h.unique hoth hinfo (hs.trans hh.symm)]
      exact hheight
  · rintro ⟨info,hf,hheight⟩
    obtain ⟨hinfo,hh⟩ := transaction_some hf
    exact ⟨info,hinfo,hh,hheight⟩

theorem allFit_contents {s : Transfers} (h : AllFit s block transfers) :
    AllFit (contents s) block transfers := by
  refine ⟨h.indexed,fun hblk => ⟨?_,(h.fresh hblk).apart⟩⟩
  intro t ht
  rw [exists_contents]
  exact (h.fresh hblk).unknown t ht

section Entry

variable {spent : Bool} {s : Transfers} (h : Books c.transactions (contents c.toTransfers))
  (hbound : block.height ≤ unconfirmedHeight)
  (hfollows : block.height ≠ unconfirmedHeight → Follows c.transactions block.height)
  (hadded : Added block tx transfers c spent s)

include h hbound hfollows hadded

theorem added_entry :
    Last (insertByHeight (transactionInformation block tx) c.transactions) tx.transactionHash ∧
      Books (insertByHeight (transactionInformation block tx) c.transactions)
        (received block tx transfers (contents c.toTransfers)) := by
  have hnew := transaction_none.mp hadded.unknown
  have hbeh : ∀ b ∈ c.transactions, block.height < b.blockHeight →
      b.blockHeight = unconfirmedHeight := by
    intro b hb hlt
    by_cases hblk : block.height = unconfirmedHeight
    · have hle := h.indexed.bounded b hb
      omega
    · exact (hfollows hblk).behind hb hlt
  have hi := h.insert (show ∀ b ∈ c.transactions, b.transactionHash ≠
    (transactionInformation block tx).transactionHash from hnew) hbound
  exact ⟨last_insert h.indexed hnew hbeh, hi.receive (allFit_contents hadded.fit) entered_new⟩

theorem added_books : Books (insertByHeight (transactionInformation block tx) c.transactions)
    (contents s) := by
  obtain ⟨hl,hrec⟩ := added_entry h hbound hfollows hadded
  exact hrec.spendAll hadded.spending entered_new hl

end Entry

theorem addTransaction_books (h : Books c.transactions (contents c.toTransfers))
    (hbound : block.height ≤ unconfirmedHeight)
    (hfollows : block.height ≠ unconfirmedHeight → Follows c.transactions block.height)
    (hd : addTransaction block tx transfers c = .ok added c') :
    Books c'.transactions (contents c'.toTransfers) := by
  obtain ⟨_,s,hadded,hval,rfl⟩ := addTransaction_ok hd
  have hbks := added_books h hbound hfollows hadded
  cases added with
  | true => exact hbks
  | false =>
    show Books c.transactions (contents s)
    rw [hadded.unchanged hval.symm]
    exact h

theorem mark_books {gi : List ℕ} {found : Bool} (h : Books c.transactions (contents c.toTransfers))
    (hbound : block.height ≤ unconfirmedHeight) (hfollows : Follows c.transactions block.height)
    (hd : markTransactionConfirmed block hash gi c = .ok found c') :
    Books c'.transactions (contents c'.toTransfers) := by
  rcases markTransactionConfirmed_ok hd with rfl | ⟨info,s,hmk,rfl⟩
  · exact h
  · obtain ⟨hmem,rfl⟩ := transaction_some hmk.known
    show Books (replaceTransaction (info.confirmed block) c.transactions) (contents s)
    rw [hmk.contents]
    exact h.mark hbound hfollows hmem hmk.unconfirmed hmk.confirmed hmk.allConfirm

theorem session_called (h : Session P c) : Called c := by
  induction h with
  | empty => exact .empty
  | @add _ _ block tx transfers _ _ _ _ _ done ih =>
    have hcd := ih.add block tx transfers
    rw [done] at hcd
    exact hcd
  | @mark _ _ block hash gi _ _ _ _ done ih =>
    have hcd := ih.mark block hash gi
    rw [done] at hcd
    exact hcd
  | delete _ hash ih => exact ih.delete hash
  | detach _ hgt ih => exact ih.detach hgt
  | advance _ hgt ih => exact ih.advance hgt

theorem session_books (h : Session P c) : Books c.transactions (contents c.toTransfers) := by
  induction h with
  | empty =>
    exact ⟨⟨List.Pairwise.nil,List.Pairwise.nil,fun _ h => (List.not_mem_nil h).elim⟩,
      fun _ h => (List.not_mem_nil h).elim,fun _ h => (List.not_mem_nil h).elim,
      fun _ h => (List.not_mem_nil h).elim,List.Pairwise.nil,List.Pairwise.nil,List.Pairwise.nil⟩
  | add _ hbound hfollows _ hd ih =>
    exact addTransaction_books ih hbound hfollows hd
  | mark _ hbound hfollows hd ih => exact mark_books ih hbound hfollows hd
  | @delete c _ hash ih =>
    unfold TransfersContainer.deleteUnconfirmedTransaction
    cases hinfo : c.transaction hash with
    | none => exact ih
    | some _ =>
      dsimp only
      obtain ⟨hmem,rfl⟩ := transaction_some hinfo
      split_ifs with hheight
      · exact ih
      · exact deleteTransaction_books ih (ih.releasable_unconfirmed hmem (not_not.mp hheight))
  | @detach _ _ hgt ih =>
    exact (detach_books hgt (I := fun _ => True) (fun _ _ _ _ _ _ => trivial) trivial ih).2.1
  | advance _ _ ih =>
    unfold TransfersContainer.advanceHeight
    split_ifs <;> exact ih

end Sessions

end Orbis.WalletLedger
