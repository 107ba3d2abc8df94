import Orbis.WalletPasses

/-!
# Outputs that stay spendable

A transaction of a block is kept from the containers if it has no public key,
and a container that knows it already spends nothing for it. For every output
that the transactions of the blocks spend, the transfers that are available
before or come in are counted against the inputs that take them. Nothing stale
is left exactly if from every point on as many are taken as come in.
-/

set_option autoImplicit false

namespace Orbis.WalletStale

open FaultState StateList ChainTypes WalletTransfers WalletMoves WalletContents
open WalletConsumer WalletBlocks WalletPasses

def drain (n : ℕ) : List (ℕ × ℕ) → ℕ
  | [] => n
  | (brought, taken) :: rest => drain (n + brought - taken) rest

def brought (l : List (ℕ × ℕ)) : ℕ := (l.map Prod.fst).sum

def taken (l : List (ℕ × ℕ)) : ℕ := (l.map Prod.snd).sum

theorem drain_eq_zero (n : ℕ) (l : List (ℕ × ℕ)) : drain n l = 0 ↔
    n + brought l ≤ taken l ∧ ∀ later, later <:+ l → brought later ≤ taken later := by
  induction l generalizing n with
  | nil => simp [drain, brought, taken]
  | cons e rest ih =>
    obtain ⟨b,t⟩ := e
    have hb : brought ((b, t) :: rest) = b + brought rest := by simp [brought]
    have htkn : taken ((b, t) :: rest) = t + taken rest := by simp [taken]
    rw [drain, ih, hb, htkn]
    constructor
    · rintro ⟨hall,hlat⟩
      have hr := hlat rest List.suffix_rfl
      refine ⟨by omega,?_⟩
      intro later hs
      rcases List.suffix_cons_iff.mp hs with rfl | hs
      · rw [hb, htkn]
        omega
      · exact hlat later hs
    · rintro ⟨hall,hlat⟩
      have hr := hlat rest (List.suffix_cons _ _)
      refine ⟨by omega,?_⟩
      intro later hs
      exact hlat later (hs.trans (List.suffix_cons _ _))

section Counting

def names (x : SpentOutputDescriptor) (input : TransactionInput) : Bool :=
  decide (inputDescriptor input = some x)

def isOf (x : SpentOutputDescriptor) (t : TransactionOutputInformationIn) : Bool :=
  decide (t.descriptor = x)

def stock (x : SpentOutputDescriptor) (l : List Transfer) : ℕ :=
  l.countP fun t => isOf x t.toTransactionOutputInformationIn

variable {x : SpentOutputDescriptor} {blk : TransactionBlockInfo} {hash : Hash} {i : ℕ}
  {ins : List TransactionInput} {g g' : Transfers} {spent : Bool}

theorem foreign_stock {inp : TransactionInput} (h : Foreign g inp)
    (hn : names x inp = true) : stock x g.available = 0 := by
  have hin := of_decide_eq_true hn
  apply List.countP_eq_zero.mpr
  intro t ht hof
  have hd : t.descriptor = x := of_decide_eq_true hof
  cases inp with
  | base _ => cases hin
  | key _ _ _ =>
    cases hin
    have hnot := h.2.1 t ht
    rw [Transfer.isFor, decide_eq_true hd] at hnot
    cases hnot
  | multisignature _ _ _ =>
    cases hin
    exact h t ht hd

theorem spending_stock (h : Spending blk hash i ins g spent g') :
    stock x g'.available = stock x g.available - ins.countP (names x) := by
  induction h with
  | done _ _ => simp
  | @foreign _ inp _ _ _ _ hfgn _ ih =>
    rw [ih, List.countP_cons]
    by_cases hn : names x inp = true
    · rw [foreign_stock hfgn hn]
      omega
    · rw [if_neg hn, Nat.add_zero]
  | @spend _ inp _ g _ _ cur hl hch _ ih =>
    have hs : stock x g.available = stock x cur.erase + if names x inp = true then 1 else 0 := by
      have hi : isOf x cur.item.toTransactionOutputInformationIn = names x inp := by
        unfold isOf names
        rw [chosen_descriptor hch]
        simp
      rw [← hl, stock, cur.perm_list.countP_eq, List.countP_cons, hi]
      rfl
    rw [ih, List.countP_cons, hs]
    dsimp only
    omega

end Counting

variable {prs : List PreprocessedTx}

section Steps

variable (x : SpentOutputDescriptor) (s : Subscription)

def arrivals (r : PreprocessedTx) : ℕ :=
  if r.1.blockInfo.height = unconfirmedHeight then 0
  else match s.container.transaction r.1.tx.transactionHash with
    | none => (r.2.of s.spendKey).countP (isOf x)
    | some known =>
      if known.blockHeight = unconfirmedHeight then
        stock x ((waiting r.1.tx.transactionHash (contents s.container.toTransfers)).map
          (confirmedAt r.1.blockInfo r.2.globalIdxs))
      else 0

def takes (r : PreprocessedTx) : ℕ :=
  match s.container.transaction r.1.tx.transactionHash with
  | none => r.1.tx.inputs.countP (names x)
  | some _ => 0

variable {x s} {s' : Subscription} {r o : PreprocessedTx}

theorem stock_contents (t : Transfers) : stock x (contents t).available = stock x t.available :=
  List.countP_map

theorem received_stock {blk : TransactionBlockInfo} {tx : TransactionReader}
    {transfers : List TransactionOutputInformationIn} {g : Transfers} :
    stock x (received blk tx transfers g).available = stock x g.available +
      if blk.height = unconfirmedHeight then 0 else transfers.countP (isOf x) := by
  unfold received
  dsimp only
  split_ifs with hblk
  · rfl
  · rw [stock, List.countP_append, List.countP_map]
    rfl

theorem step_stock (h : Step r s s') : stock x s'.container.available =
    stock x s.container.available + arrivals x s r - takes x s r := by
  cases h with
  | idle hi =>
    obtain ⟨known,hkn,hht⟩ := hi
    unfold arrivals takes
    rw [hkn]
    dsimp only
    split_ifs with hblk hwts
    · rfl
    · exact absurd (hht hwts) hblk
    · rfl
  | @mark known g hmk =>
    show stock x g.available = _
    unfold arrivals takes
    rw [hmk.known, if_neg hmk.confirmed]
    dsimp only
    rw [if_pos hmk.unconfirmed, ← stock_contents g, hmk.contents,
      ← stock_contents s.container.toTransfers, Nat.sub_zero]
    exact List.countP_append
  | @add _ g had =>
    show stock x g.available = _
    unfold arrivals takes
    rw [had.unknown, ← stock_contents, spending_stock had.spending, received_stock, stock_contents]

theorem arrivals_other (h : Step r s s') (hoth : r.1.tx.transactionHash ≠ o.1.tx.transactionHash) :
    arrivals x s' o = arrivals x s o := by
  unfold arrivals
  rw [h.transaction_other hoth, h.waiting_other hoth, h.spendKey]

theorem takes_other (h : Step r s s') (hoth : r.1.tx.transactionHash ≠ o.1.tx.transactionHash) :
    takes x s' o = takes x s o := by
  unfold takes
  rw [h.transaction_other hoth]

def flow (x : SpentOutputDescriptor) (s : Subscription) (processed : List PreprocessedTx) :
    List (ℕ × ℕ) :=
  processed.map fun r => (arrivals x s r, takes x s r)

theorem run_stock (hd : Distinct prs) (h : processAt prs s = .ok () s') :
    stock x s'.container.available = drain (stock x s.container.available) (flow x s prs) := by
  induction prs generalizing s with
  | nil =>
    cases h
    rfl
  | cons _ rest ih =>
    obtain ⟨s₁,hfst,hr⟩ := inTurn_cons.mp h
    obtain ⟨hoth,hd⟩ := List.pairwise_cons.mp hd
    have hs := processTx_step hfst
    have hf : flow x s₁ rest = flow x s rest := by
      apply List.map_congr_left
      intro o hmem
      rw [arrivals_other hs (hoth o hmem), takes_other hs (hoth o hmem)]
    rw [ih hd hr, step_stock hs, hf]
    rfl

end Steps

section Stale

def Stale (blocks : List CompleteBlock) (s : Subscription) : Prop :=
  ∃ complete ∈ blocks, ∃ tx ∈ complete.transactions, ∃ input ∈ tx.inputs,
    ∃ t ∈ s.container.available, inputDescriptor input = some t.descriptor

/-- From every transaction on, and over all of them together with what is
available before, the inputs that take the output are not fewer than the
transfers that come in. -/
def Covered (blocks : List CompleteBlock) (processed : List PreprocessedTx) (s : Subscription) :
    Prop :=
  ∀ complete ∈ blocks, ∀ tx ∈ complete.transactions, ∀ input ∈ tx.inputs, ∀ x,
    inputDescriptor input = some x →
    stock x s.container.available + (processed.map (arrivals x s)).sum ≤
        (processed.map (takes x s)).sum ∧
      ∀ later, later <:+ processed →
        (later.map (arrivals x s)).sum ≤ (later.map (takes x s)).sum

variable {bs : List CompleteBlock} {s s' : Subscription} {x : SpentOutputDescriptor}

theorem brought_flow : brought (flow x s prs) = (prs.map (arrivals x s)).sum := by
  rw [brought, flow, List.map_map]
  rfl

theorem taken_flow : taken (flow x s prs) = (prs.map (takes x s)).sum := by
  rw [taken, flow, List.map_map]
  rfl

theorem drain_flow (n : ℕ) : drain n (flow x s prs) = 0 ↔
    n + (prs.map (arrivals x s)).sum ≤ (prs.map (takes x s)).sum ∧ ∀ later, later <:+ prs →
        (later.map (arrivals x s)).sum ≤ (later.map (takes x s)).sum := by
  rw [drain_eq_zero, brought_flow, taken_flow]
  apply and_congr_right
  intro _
  constructor
  · intro h later hlat
    have hf := h (flow x s later) (hlat.map _)
    rwa [brought_flow, taken_flow] at hf
  · intro h l hl
    obtain ⟨later,hlat,rfl⟩ := List.suffix_map_iff.mp hl
    have hsum := h later hlat
    rwa [← brought_flow, ← taken_flow] at hsum

theorem stock_zero {l : List Transfer} : stock x l = 0 ↔ ∀ t ∈ l, t.descriptor ≠ x := by
  rw [stock, List.countP_eq_zero]
  simp [isOf]

theorem not_stale_iff : ¬ Stale bs s ↔ ∀ cpl ∈ bs, ∀ tx ∈ cpl.transactions,
    ∀ inp ∈ tx.inputs, ∀ x, inputDescriptor inp = some x → stock x s.container.available = 0 := by
  constructor
  · intro h cpl hcmp tx htx inp hin x hx
    apply stock_zero.mpr
    rintro t ht rfl
    exact h ⟨cpl,hcmp,tx,htx,inp,hin,t,ht,hx⟩
  · rintro h ⟨cpl,hcmp,tx,htx,inp,hin,t,ht,hx⟩
    exact stock_zero.mp (h cpl hcmp tx htx inp hin _ hx) t ht rfl

/-- After a call that returns true no stale output is left at a subscription
exactly if the outputs that the blocks spend are covered: the search and the
containers pass over a transaction without a public key and over one that the
container knows from the pool. -/
theorem stale_gone_iff (syncStartTimestamp : UInt64)
    (preprocessOutputs : Item → Except Failure PreprocessInfo → Prop) (hardwareConcurrency : ℕ)
    (blocks : List CompleteBlock) (startHeight : ℕ) {processed : List PreprocessedTx}
    {subs subs' : List Subscription}
    (hcall : Succeeds syncStartTimestamp preprocessOutputs hardwareConcurrency blocks startHeight
      processed subs subs') (hdistinct : Unrepeated blocks) :
    List.Forall₂ (fun s s' => ¬ Stale blocks s' ↔ Covered blocks processed s) subs subs' := by
  have hp := processed_distinct hcall.searched hdistinct
  refine (succeeds_iff.mp hcall).2.imp ?_
  rintro s s' ⟨mid,hrun,rfl⟩
  have hav : (advanceHeight (startHeight + blocks.length - 1) mid).container.available =
      mid.container.available := by
    unfold advanceHeight TransfersContainer.advanceHeight
    dsimp only
    split_ifs <;> rfl
  rw [not_stale_iff, hav]
  unfold Covered
  simp only [run_stock hp hrun, drain_flow]

end Stale

def sampleSearch (_ : Item) (outcome : Except Failure PreprocessInfo) : Prop :=
  outcome = .ok ⟨[], []⟩

def sampleSpending (publicKey : PublicKey) : TransactionReader :=
  { sampleReader 2 [.key 50 [] 3] with transactionPublicKey := publicKey }

def spendingBlocks (publicKey : PublicKey) : List CompleteBlock :=
  [⟨some (sampleBlock 5), [sampleSpending publicKey]⟩]

def sampleTx : PreprocessedTx := (⟨⟨3, 5, 0⟩, sampleSpending 1⟩, ⟨[], []⟩)

theorem spending_searched :
    OnNewBlocks 0 sampleSearch 1 (spendingBlocks 1) 3 [sampleTx] where
  ends := by
    refine ⟨_,.head (.skip rfl rfl) (.head (.push rfl rfl rfl (by decide)) (.head (.skip rfl rfl)
      (.head (.close rfl rfl) (.head (.enter (c := ⟨[], .ready, []⟩) rfl rfl rfl)
      (.head (.pop (c := ⟨[], .waiting, []⟩) rfl rfl rfl)
      (.head (.succeed (c := ⟨[], .holding _, []⟩) rfl rfl rfl)
      (.head (.append (c := ⟨[], .appending _ _, []⟩) rfl rfl)
      (.head (.enter (c := ⟨[], .ready, []⟩) rfl rfl rfl)
      (.head (.exhaust (c := ⟨[], .waiting, []⟩) rfl rfl rfl rfl) .refl))))))))),?_,?_⟩
    · intro w hw
      exact List.mem_singleton.mp hw
    · exact .refl _
  sorted := List.pairwise_singleton _ _

theorem keyless_searched : OnNewBlocks 0 sampleSearch 1 (spendingBlocks 0) 3 [] where
  ends := by
    refine ⟨_,.head (.skip rfl rfl) (.head (.skip rfl rfl) (.head (.skip rfl rfl)
      (.head (.close rfl rfl) (.head (.enter (c := ⟨[], .ready, []⟩) rfl rfl rfl)
      (.head (.exhaust (c := ⟨[], .waiting, []⟩) rfl rfl rfl rfl) .refl))))),?_,?_⟩
    · intro w hw
      exact List.mem_singleton.mp hw
    · exact .refl _
  sorted := .nil

def spendingDone : List Subscription :=
  (left (processAll [sampleTx] [sampleSubscription])).map (advanceHeight 3)

theorem spending_succeeds : Succeeds 0 sampleSearch 1 (spendingBlocks 1) 3 [sampleTx]
    [sampleSubscription] spendingDone where
  searched := spending_searched
  handed := ⟨_,eq_ok_of_value (by decide),rfl⟩

theorem stale_gone_sample : Succeeds 0 sampleSearch 1 (spendingBlocks 1) 3 [sampleTx]
      [sampleSubscription] spendingDone ∧ List.Forall₂ (fun s s' => ¬ Stale (spendingBlocks 1) s' ↔
      Covered (spendingBlocks 1) [sampleTx] s) [sampleSubscription] spendingDone :=
  ⟨spending_succeeds,stale_gone_iff 0 sampleSearch 1 (spendingBlocks 1) 3 spending_succeeds
    (List.pairwise_singleton _ _)⟩

/-- The transaction has no public key, and the output it spends can still be
spent. -/
theorem keyless_spend_stale : ∃ s', Succeeds 0 sampleSearch 1 (spendingBlocks 0) 3 []
    [sampleSubscription] [s'] ∧ Stale (spendingBlocks 0) s' := by
  refine ⟨advanceHeight 3 sampleSubscription,⟨keyless_searched,[sampleSubscription],rfl,rfl⟩,?_⟩
  refine ⟨_,List.mem_singleton.mpr rfl,_,List.mem_singleton.mpr rfl,_,List.mem_singleton.mpr rfl,
    stored ⟨1, 0, 0⟩ (sampleReader 1 []) (sampleTransfer 50 7 0 3),?_,rfl⟩
  decide

end Orbis.WalletStale
