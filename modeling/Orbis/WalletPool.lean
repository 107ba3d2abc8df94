import Orbis.ChainReady
import Orbis.WalletConsumer

/-!
# Synchronising the known pool transactions

The synchronizer asks the node in two steps. The difference of the pool to
the ids that some consumer knows tells what was deleted, and its difference
to the ids that all consumers know tells what is new to one of them. Every
consumer then adds and removes the same transactions, and if the node's ready
transactions did not change between the two requests, all know just these.
-/

set_option autoImplicit false

namespace Orbis.WalletPool

open FaultState ChainTypes ChainSemantic ChainBlock ChainPool StateList WalletKeys WalletConsumer

section Node

structure HashOrder where
  list : Finset Hash → List Hash
  mem_list : ∀ {s id}, id ∈ list s ↔ id ∈ s

structure PoolView (env : Env) where
  now : UInt64
  main : MainChain
  pool : Pool
  named : ∀ d ∈ pool.transactions, d.id = env.getObjectHash d.tx

variable {env : Env} (order : HashOrder)

def readyIds (n : PoolView env) : Except Fault (Finset Hash) := do
  let flags ← n.pool.transactions.mapM fun d => do
    let result ← ChainReady.ready env n.now n.main d
    pure (d.id, result.1)
  pure ((flags.filter Prod.snd).map Prod.fst).toFinset

def crossOut (sets : Finset Hash × Finset Hash) (id : Hash) : Finset Hash × Finset Hash :=
  if id ∈ sets.2 then (sets.1.erase id, sets.2.erase id) else sets

def getDifference (n : PoolView env) (knownTxIds : List Hash) :
    Except Fault (List Hash × List Hash) := do
  let readyTxIds ← readyIds n
  let sets := (order.list readyTxIds).foldl crossOut (readyTxIds, knownTxIds.toFinset)
  pure (order.list sets.1, order.list sets.2)

def getTransactions (n : PoolView env) (ids : List Hash) : List Transaction :=
  ids.filterMap fun id =>
    (n.pool.transactions.find? fun d => decide (d.id = id)).map TransactionDetails.tx

structure GetPoolResponse where
  isLastKnownBlockActual : Bool
  newTxs : List WalletTransaction
  deletedTxIds : List Hash

structure Reply (env : Env) where
  failure : Option ErrorCode
  node : PoolView env
  readPrefix : Transaction → Except ErrorCode WalletTransaction

def createTransactionPrefix (r : Reply env) (tx : Transaction) (hash : Hash) :
    Except ErrorCode WalletTransaction := do
  let read ← r.readPrefix tx
  pure { read with transactionHash := hash }

/-- `getPoolChangesLite` and the reading of its transactions. An assertion of
the node that fails leaves no answer. -/
def getPoolSymmetricDifference (r : Reply env) (knownTxIds : List Hash) (lastKnownBlock : Hash) :
    Except Stop GetPoolResponse :=
  match r.failure with
  | some code => .error (.returned code)
  | none =>
    match getDifference order r.node knownTxIds with
    | .error _ => .error .undefined
    | .ok (addedTxsIds, deletedTxIds) => do
      let newTxs ← ((getTransactions r.node addedTxsIds).mapM fun tx =>
        createTransactionPrefix r tx (env.getObjectHash tx)).mapError Stop.returned
      .ok ⟨decide (lastKnownBlock = r.node.main.getTailId), newTxs, deletedTxIds⟩

end Node

section Synchronizer

variable {env : Env} (order : HashOrder) (scheme : KeyScheme)
  (getGlobalIndices : Hash → Except ErrorCode (List ℕ))

def getPoolUnionAndIntersection (first : TransfersConsumer) (others : List TransfersConsumer) :
    Finset Hash × Finset Hash :=
  others.foldl (fun sets c =>
    (sets.1 ∪ c.poolTxs, sets.2.filter fun id => id ∈ c.poolTxs)) (first.poolTxs, first.poolTxs)

structure Turn where
  shouldStop : Bool
  index : ℕ

def processPoolTxs (turn : ℕ → Turn) (newTxs : List WalletTransaction)
    (deletedTxIds : List Hash) :
    ℕ → List TransfersConsumer → EStateM.Result Stop (List TransfersConsumer) (Option ErrorCode)
  | _, [] => .ok none []
  | i, c :: rest =>
    if (turn i).shouldStop then .ok (some .interrupted) (c :: rest)
    else
      match onPoolUpdated scheme getGlobalIndices (turn i).index newTxs deletedTxIds c with
      | .ok _ c' =>
        match processPoolTxs turn newTxs deletedTxIds (i + 1) rest with
        | .ok error rest' => .ok error (c' :: rest')
        | .error stop rest' => .error stop (c' :: rest')
      | .error (.returned code) c' => .ok (some code) (c' :: rest)
      | .error stop c' => .error stop (c' :: rest)

inductive Completion where
  | completed (error : Option ErrorCode)
  | outdated
  deriving DecidableEq

def processResponse (turn : ℕ → Turn) (newTxs : List WalletTransaction)
    (deletedTxIds : List Hash) : EStateM Stop (List TransfersConsumer) Completion := do
  let error ← processPoolTxs scheme getGlobalIndices turn newTxs deletedTxIds 0
  pure (.completed error)

def request (r : Except Stop GetPoolResponse)
    (next : GetPoolResponse → EStateM Stop (List TransfersConsumer) Completion) :
    EStateM Stop (List TransfersConsumer) Completion :=
  match r with
  | .error (.returned code) => pure (.completed (some code))
  | .error stop => throw stop
  | .ok response => if !response.isLastKnownBlockActual then pure .outdated else next response

/-- With no consumer the source reads past the end of the map. -/
def startPoolSync (turn : ℕ → Turn) (lastBlockId : Hash) (first second : Reply env) :
    EStateM Stop (List TransfersConsumer) Completion := do
  match ← get with
  | [] => throw .undefined
  | c :: others =>
    let sets := getPoolUnionAndIntersection c others
    request (getPoolSymmetricDifference order first (order.list sets.1) lastBlockId)
      fun unionResponse =>
        if sets.1 = sets.2 then
          processResponse scheme getGlobalIndices turn unionResponse.newTxs
            unionResponse.deletedTxIds
        else
          request (getPoolSymmetricDifference order second (order.list sets.2) lastBlockId)
            fun intersectionResponse =>
              processResponse scheme getGlobalIndices turn intersectionResponse.newTxs
                unionResponse.deletedTxIds

end Synchronizer

variable {ids : List Hash}

section Answers

variable {env : Env} {order : HashOrder} {n : PoolView env} {P : Finset Hash} {r : Reply env}

theorem foldl_crossOut {sets : Finset Hash × Finset Hash} :
    ids.foldl crossOut sets = (sets.1 \ (ids.toFinset ∩ sets.2), sets.2 \ ids.toFinset) := by
  induction ids generalizing sets with
  | nil => simp
  | cons id _ ih =>
    rw [List.foldl_cons, ih, crossOut]
    by_cases hkn : id ∈ sets.2
    · rw [if_pos hkn]
      ext x
      · by_cases hx : x = id <;> simp [hx, hkn]
      · by_cases hx : x = id <;> simp [hx]
    · rw [if_neg hkn]
      ext x
      · by_cases hx : x = id <;> simp [hx, hkn]
      · by_cases hx : x = id <;> simp [hx, hkn]

theorem toFinset_list (order : HashOrder) (s : Finset Hash) : (order.list s).toFinset = s := by
  ext id
  rw [List.mem_toFinset, order.mem_list]

theorem getDifference_ok (h : readyIds n = .ok P) (known : Finset Hash) :
    getDifference order n (order.list known) =
      .ok (order.list (P \ known), order.list (known \ P)) := by
  refine except_bind_ok.mpr ⟨P,h,?_⟩
  dsimp only
  rw [foldl_crossOut, toFinset_list, toFinset_list, Finset.sdiff_inter_self_left]
  rfl

theorem mem_pool_of_ready (h : readyIds n = .ok P) {id : Hash} (hid : id ∈ P) :
    ∃ d ∈ n.pool.transactions, d.id = id := by
  unfold readyIds at h
  obtain ⟨_,hf,h⟩ := except_bind_ok.mp h
  cases h
  rw [List.mem_toFinset, List.mem_map] at hid
  obtain ⟨e,hent,rfl⟩ := hid
  obtain ⟨d,hd,hrun⟩ := mem_of_mapM_ok hf e (List.mem_of_mem_filter hent)
  obtain ⟨_,-,hp⟩ := except_bind_ok.mp hrun
  cases hp
  exact ⟨d,hd,rfl⟩

theorem getTransactions_hashes (h : ∀ id ∈ ids, ∃ d ∈ n.pool.transactions, d.id = id) :
    (getTransactions n ids).map env.getObjectHash = ids := by
  induction ids with
  | nil => rfl
  | cons id _ ih =>
    obtain ⟨⟨d,hd,hid⟩,hr⟩ := List.forall_mem_cons.mp h
    cases hf : n.pool.transactions.find? fun d => decide (d.id = id) with
    | none =>
      have hn := List.find?_eq_none.mp hf d hd
      simp [hid] at hn
    | some found =>
      have hfd : found.id = id := by simpa using List.find?_some hf
      have hna := n.named found (List.mem_of_find?_eq_some hf)
      rw [getTransactions, List.filterMap_cons, hf]
      dsimp only [Option.map_some]
      rw [List.map_cons, ← hna, hfd]
      congr 1
      exact ih hr

theorem createTransactionPrefix_hash {tx : Transaction} {hash : Hash} {w : WalletTransaction}
    (h : createTransactionPrefix r tx hash = .ok w) : w.transactionHash = hash := by
  obtain ⟨_,-,h⟩ := except_bind_ok.mp h
  cases h
  rfl

theorem readTransactions_hashes {txs : List Transaction} {new : List WalletTransaction}
    (h : (txs.mapM fun tx => createTransactionPrefix r tx (env.getObjectHash tx)) = .ok new) :
    new.map (·.transactionHash) = txs.map env.getObjectHash := by
  induction txs generalizing new with
  | nil =>
    cases h
    rfl
  | cons _ _ ih =>
    rw [List.mapM_cons] at h
    obtain ⟨_,hw,h⟩ := except_bind_ok.mp h
    obtain ⟨_,ho,h⟩ := except_bind_ok.mp h
    cases h
    rw [List.map_cons, List.map_cons, createTransactionPrefix_hash hw, ih ho]

def newIds (response : GetPoolResponse) : Finset Hash :=
  (response.newTxs.map (·.transactionHash)).toFinset

theorem response_ids {known : Finset Hash} {lastKnownBlock : Hash} {resp : GetPoolResponse}
    (hre : readyIds r.node = .ok P)
    (h : getPoolSymmetricDifference order r (order.list known) lastKnownBlock = .ok resp) :
    newIds resp = P \ known ∧ resp.deletedTxIds.toFinset = known \ P := by
  unfold getPoolSymmetricDifference at h
  cases hf : r.failure with
  | some _ =>
    rw [hf] at h
    cases h
  | none =>
    rw [hf, getDifference_ok hre] at h
    obtain ⟨_,hnew,h⟩ := except_bind_ok.mp h
    cases h
    refine ⟨?_,toFinset_list order _⟩
    cases hr : (getTransactions r.node (order.list (P \ known))).mapM fun tx =>
        createTransactionPrefix r tx (env.getObjectHash tx) with
    | error _ =>
      rw [hr] at hnew
      cases hnew
    | ok _ =>
      rw [hr] at hnew
      cases hnew
      rw [newIds, readTransactions_hashes hr, getTransactions_hashes, toFinset_list]
      intro id hid
      rw [order.mem_list, Finset.mem_sdiff] at hid
      exact mem_pool_of_ready hre hid.1

end Answers

section Consumers

variable {scheme : KeyScheme} {getGlobalIndices : Hash → Except ErrorCode (List ℕ)} {idx : ℕ}
  {new : List WalletTransaction} {dels : List Hash} {c c' : TransfersConsumer}

theorem addPoolTransactions_poolTxs
    (h : addPoolTransactions scheme getGlobalIndices idx new c = .ok () c') :
    c'.poolTxs = c.poolTxs ∪ (new.map (·.transactionHash)).toFinset := by
  induction new generalizing c with
  | nil =>
    cases h
    simp
  | cons tx _ ih =>
    obtain ⟨_,_,hfst,hr⟩ := bind_ok.mp h
    have hp := processTransaction_poolTxs scheme getGlobalIndices (unconfirmedBlock idx) tx
      (c.know tx.transactionHash)
    rw [addPoolTransaction_eq] at hfst
    rw [hfst, left_ok] at hp
    rw [ih hr, hp]
    ext id
    simp [TransfersConsumer.know]

theorem foldl_forget_poolTxs :
    (ids.foldl TransfersConsumer.forget c).poolTxs = c.poolTxs \ ids.toFinset := by
  induction ids generalizing c with
  | nil => simp
  | cons id _ ih =>
    rw [List.foldl_cons, ih]
    ext x
    by_cases hx : x = id <;> simp [TransfersConsumer.forget, hx]

theorem onPoolUpdated_poolTxs
    (h : onPoolUpdated scheme getGlobalIndices idx new dels c = .ok () c') :
    c'.poolTxs = (c.poolTxs ∪ (new.map (·.transactionHash)).toFinset) \ dels.toFinset := by
  obtain ⟨_,_,had,hdel⟩ := bind_ok.mp h
  cases hdel
  rw [foldl_forget_poolTxs, addPoolTransactions_poolTxs had]

theorem processPoolTxs_updated {turn : ℕ → Turn} {i : ℕ} {cs cs' : List TransfersConsumer}
    (h : processPoolTxs scheme getGlobalIndices turn new dels i cs =
      .ok none cs') : List.Forall₂ (fun c c' => c'.poolTxs = (c.poolTxs ∪
      (new.map (·.transactionHash)).toFinset) \ dels.toFinset) cs cs' := by
  induction cs generalizing i cs' with
  | nil =>
    cases h
    exact .nil
  | cons c rest ih =>
    rw [processPoolTxs] at h
    by_cases hs : (turn i).shouldStop = true
    · rw [if_pos hs] at h
      cases h
    · rw [if_neg hs] at h
      cases hrun : onPoolUpdated scheme getGlobalIndices (turn i).index new dels c with
      | ok _ _ =>
        rw [hrun] at h
        dsimp only at h
        cases hr : processPoolTxs scheme getGlobalIndices turn new dels (i + 1) rest with
        | ok _ _ =>
          rw [hr] at h
          cases h
          exact .cons (onPoolUpdated_poolTxs hrun) (ih hr)
        | error _ _ =>
          rw [hr] at h
          cases h
      | error stop _ =>
        rw [hrun] at h
        cases stop <;> cases h

theorem foldl_union_intersection (os : List TransfersConsumer) (sets : Finset Hash × Finset Hash)
    (h : c ∈ os ∨ (sets.2 ⊆ c.poolTxs ∧ c.poolTxs ⊆ sets.1)) : (os.foldl (fun sets c =>
      (sets.1 ∪ c.poolTxs, sets.2.filter fun id => id ∈ c.poolTxs)) sets).2 ⊆ c.poolTxs ∧
    c.poolTxs ⊆ (os.foldl (fun sets c =>
      (sets.1 ∪ c.poolTxs, sets.2.filter fun id => id ∈ c.poolTxs)) sets).1 := by
  induction os generalizing sets with
  | nil => simpa using h
  | cons _ _ ih =>
    rw [List.foldl_cons]
    apply ih
    rcases h with hmem | ⟨hlow,hh⟩
    · rcases List.mem_cons.mp hmem with rfl | hmem
      · right
        refine ⟨?_,Finset.subset_union_right⟩
        intro id hid
        exact (Finset.mem_filter.mp hid).2
      · exact .inl hmem
    · right
      exact ⟨(Finset.filter_subset _ _).trans hlow,hh.trans Finset.subset_union_left⟩

theorem known_between {first : TransfersConsumer} {os : List TransfersConsumer}
    (h : c ∈ first :: os) : (getPoolUnionAndIntersection first os).2 ⊆ c.poolTxs ∧
      c.poolTxs ⊆ (getPoolUnionAndIntersection first os).1 := by
  apply foldl_union_intersection
  rcases List.mem_cons.mp h with rfl | h
  · exact .inr ⟨subset_rfl,subset_rfl⟩
  · exact .inl h

theorem known_becomes_ready {P union intersection known : Finset Hash} (hlow : intersection ⊆ known)
    (hh : known ⊆ union) : (known ∪ P \ intersection) \ (union \ P) = P := by
  ext id
  have hlow := @hlow id
  have hh := @hh id
  simp only [Finset.mem_sdiff, Finset.mem_union]
  tauto

end Consumers

section Synchronised

variable {env : Env} {order : HashOrder} {scheme : KeyScheme}
  {getGlobalIndices : Hash → Except ErrorCode (List ℕ)} {turn : ℕ → Turn}
  {consumers consumers' : List TransfersConsumer} {P : Finset Hash}

theorem request_completed {r : Except Stop GetPoolResponse}
    {next : GetPoolResponse → EStateM Stop (List TransfersConsumer) Completion}
    (h : request r next consumers = .ok (.completed none) consumers') :
    ∃ resp, r = .ok resp ∧ next resp consumers = .ok (.completed none) consumers' := by
  cases r with
  | error stop => cases stop <;> cases h
  | ok resp =>
    refine ⟨resp,rfl,?_⟩
    rw [request] at h
    by_cases ha : resp.isLastKnownBlockActual = true
    · rwa [if_neg (by simp [ha])] at h
    · rw [if_pos (by simpa using ha)] at h
      cases h

theorem processResponse_completed {new : List WalletTransaction} {dels : List Hash}
    (h : processResponse scheme getGlobalIndices turn new dels consumers =
      .ok (.completed none) consumers') :
    processPoolTxs scheme getGlobalIndices turn new dels 0 consumers = .ok none consumers' := by
  obtain ⟨_,_,hp,hpu⟩ := bind_ok.mp h
  cases hpu
  exact hp

/-- Whatever the consumers knew before: if the same transactions are ready for
both requests and the synchronisation completes without an error, then every
consumer knows just these. -/
theorem poolSync_known {lastBlockId : Hash} {first second : Reply env}
    (hfirst : readyIds first.node = .ok P) (hsecond : readyIds second.node = .ok P)
    (hrun : startPoolSync order scheme getGlobalIndices turn lastBlockId first second consumers =
      .ok (.completed none) consumers') :
    consumers'.length = consumers.length ∧ ∀ c ∈ consumers', c.poolTxs = P := by
  unfold startPoolSync at hrun
  rw [get_bind] at hrun
  cases consumers with
  | nil => cases hrun
  | cons c others =>
    dsimp only at hrun
    obtain ⟨unionResponse,hu,hrun⟩ := request_completed hrun
    obtain ⟨-,hdel⟩ := response_ids hfirst hu
    have hupd : ∃ newTxs : List WalletTransaction, (newTxs.map (·.transactionHash)).toFinset =
          P \ (getPoolUnionAndIntersection c others).2 ∧
        processPoolTxs scheme getGlobalIndices turn newTxs unionResponse.deletedTxIds 0
          (c :: others) = .ok none consumers' := by
      by_cases heq : (getPoolUnionAndIntersection c others).1 =
          (getPoolUnionAndIntersection c others).2
      · rw [if_pos heq] at hrun
        refine ⟨unionResponse.newTxs,?_,processResponse_completed hrun⟩
        rw [← heq]
        exact (response_ids hfirst hu).1
      · rw [if_neg heq] at hrun
        obtain ⟨response,hr,hrun⟩ := request_completed hrun
        exact ⟨response.newTxs,(response_ids hsecond hr).1,processResponse_completed hrun⟩
    obtain ⟨newTxs,hnew,hp⟩ := hupd
    have hall := processPoolTxs_updated hp
    rw [hnew, hdel] at hall
    refine ⟨hall.length_eq.symm,?_⟩
    intro c' hc'
    obtain ⟨_,hkn,hb⟩ := forall₂_mem_right hall hc'
    obtain ⟨hlow,hh⟩ := known_between hkn
    rw [hb, known_becomes_ready hlow hh]

end Synchronised

def increasing : HashOrder where
  list s := (List.range (s.sup id + 1)).filter fun id => id ∈ s
  mem_list := by
    intro s x
    rw [List.mem_filter, List.mem_range, decide_eq_true_iff]
    refine ⟨fun h => h.2,fun hx => ⟨?_,hx⟩⟩
    exact Nat.lt_succ_of_le (Finset.le_sup (f := id) hx)

def sampleView : PoolView ChainRun.sampleEnv where
  now := 10000
  main := ChainReady.pooledNode.main
  pool := ChainReady.pooledNode.pool
  named := by decide +kernel

def sampleReply : Reply ChainRun.sampleEnv where
  failure := none
  node := sampleView
  readPrefix _ := .ok (sampleSpend 0)

def synchronise (consumers : List TransfersConsumer) :
    EStateM.Result Stop (List TransfersConsumer) Completion :=
  startPoolSync increasing sampleScheme noIndices (fun _ => ⟨false, 0⟩) 2 sampleReply sampleReply
    consumers

theorem poolSync_known_sample : (left (synchronise [⟨2, [], {5}⟩, ⟨4, [], {3, 6}⟩])).length = 2 ∧
      ∀ c ∈ left (synchronise [⟨2, [], {5}⟩, ⟨4, [], {3, 6}⟩]), c.poolTxs = {3} := by
  have hr : readyIds sampleReply.node = .ok {3} := by decide +kernel
  have hrun : value (synchronise [⟨2, [], {5}⟩, ⟨4, [], {3, 6}⟩]) = some (.completed none) := by
    decide +kernel
  exact poolSync_known hr hr (eq_ok_of_value hrun)

end Orbis.WalletPool
