import LightClient.Proofs.Engine.Collecting
import LightClient.Proofs.Engine.Quiescence
/-!
# Catching up in any order

A peer to which a fresh bulk round is bound offers a line of valid blocks and delivers them with their transactions, in
whatever order. All is committed in one batch, with the last delivery and not before (`catchUp_any_order`).

`Midway` holds while something is still to be placed: the chain is untouched, and `Collecting` says where the placed
items are. Whatever can be used by then is used before a call returns (`Midway.resolveOrphans`), so with the last
delivery nothing is left that keeps the round from being finished. `Done` holds from the commit on.
-/
namespace LightClient
namespace Engine

/-- A bulk round with the peer has just begun, the pool is empty with room for the transactions, and the chain takes
what the peer has for us. -/
structure ReadyFor (e : Engine) (peer : PeerId) (blocks : List Arrival) (txs : List Transaction) : Prop where
  chain : e.chain.WellFormed
  isOpen : e.chain.isClosed = false
  disk : e.store.outages = 0
  round : ∃ round, e.round = some round ∧ round.syncPeer = some peer ∧ round.requests = .empty
  pool : e.orphans.size = 0 ∧ e.orphans.queue = []
  room : txs.length ≤ e.orphans.capacity
  offering : Offering e.chain blocks txs

structure Midway (e₀ : Engine) (peer : PeerId) (blocks : List Arrival) (txs : List Transaction)
    (placed : Set OrphanItem) (e : Engine) (round : Round) : Prop where
  store : e.store = e₀.store
  attempts : e.attempts = e₀.attempts
  capacity : e.orphans.capacity = e₀.orphans.capacity
  pool : e.orphans.Consistent
  current : e.round = some round
  bound : round.syncPeer = some peer
  rests : round.requests.RestsOn e₀.chain
  collecting : Collecting peer blocks txs placed round.requests e.orphans

structure Done (e₀ : Engine) (peer : PeerId) (blocks : List Arrival) (txs : List Transaction) (e : Engine) : Prop where
  commit : ∃ events, e₀.chain.commit (Offering.batch blocks txs) = .ok (e.chain, events)
  attempts : ∃ round, e.attempts = e₀.attempts ++ [⟨round, .ok ()⟩] ∧ round.syncPeer = some peer ∧
    round.requests.batch = Offering.batch blocks txs
  pool (hash : Digest) : e.orphans.get? hash = none
  round {round : Round} : e.round = some round → round.requests = .empty

/-- The round goes on, or all is placed and committed. -/
def Outcome (e₀ : Engine) (peer : PeerId) (blocks : List Arrival) (txs : List Transaction) (placed : Set OrphanItem)
    (e : Engine) (Q : Round → Prop) : Prop :=
  (∃ round, Midway e₀ peer blocks txs placed e round ∧ round.requests.isFinished = false ∧ Q round) ∨
    Done e₀ peer blocks txs e ∧ ∀ item ∈ Offering.items blocks txs, item ∈ placed

variable {e₀ : Engine} {peer : PeerId} {blocks : List Arrival} {txs : List Transaction} {placed : Set OrphanItem}
  {e : Engine} {round : Round}

namespace Midway

theorem chain (h : Midway e₀ peer blocks txs placed e round) : e.chain = e₀.chain := by
  rw [Engine.chain, h.store]
  rfl

section Ready

variable (hready : ReadyFor e₀ peer blocks txs) (h : Midway e₀ peer blocks txs placed e round)
include hready h

/-- **The check after every item**: nothing happens, or the whole offering is committed. -/
theorem finish (env : Outlook) :
    (e.finishIfComplete env).2 = .ok () ∧
      (round.requests.isFinished = false ∧ (e.finishIfComplete env).1 = e ∨
        Done e₀ peer blocks txs (e.finishIfComplete env).1 ∧ ∀ item ∈ Offering.items blocks txs, item ∈ placed) := by
  cases hfinished : round.requests.isFinished with
  | false =>
    rw [finishIfComplete_of_unfinished env fun r hr => by cases h.current.symm.trans hr; exact hfinished]
    exact ⟨rfl, Or.inl ⟨rfl, rfl⟩⟩
  | true =>
    -- a finished round holds all of the offering, which is a line, so the chain takes it
    have ho := hready.offering
    obtain ⟨hlinear, hbatch⟩ := h.collecting.batch_of_finished ho h.rests hfinished
    obtain ⟨c, events, hcommit⟩ := (h.rests.commit_batch_iff hready.chain hfinished hready.isOpen).2 hlinear
    have hcommit' : e.chain.commit round.requests.batch = .ok (c, events) := by
      rw [h.chain]
      exact hcommit
    obtain ⟨hok, hchain, horphans, hattempts, hfresh⟩ := finishIfComplete_of_commit env h.current hfinished
      (by rw [h.store]; exact hready.disk) hcommit'
    refine ⟨hok, Or.inr ⟨⟨⟨events, ?_⟩, ⟨round, ?_, h.bound, hbatch⟩, fun hash => ?_, hfresh _⟩, ?_⟩⟩
    · rw [hchain, ← hbatch]
      exact hcommit
    · rw [hattempts, h.attempts]
    · rw [horphans]
      exact h.collecting.pool_of_finished ho h.rests hfinished hash
    · exact h.collecting.all_of_finished ho h.rests hfinished

theorem finish_outcome (env : Outlook) :
    (e.finishIfComplete env).2 = .ok () ∧
      Outcome e₀ peer blocks txs placed (e.finishIfComplete env).1 fun _ => True := by
  obtain ⟨hok, ⟨hunfinished, hsame⟩ | hdone⟩ := h.finish hready env
  · refine ⟨hok, Or.inl ⟨round, ?_, hunfinished, trivial⟩⟩
    rw [hsame]
    exact h
  · exact ⟨hok, Or.inr hdone⟩

theorem unfinished {item : OrphanItem} (hitem : item ∈ Offering.items blocks txs) (hnot : item ∉ placed) :
    round.requests.isFinished = false := by
  rw [Bool.eq_false_iff]
  exact fun hfinished => hnot (h.collecting.all_of_finished hready.offering h.rests hfinished item hitem)

/-! ## One item -/

theorem recordBlock (env : Outlook) {a : Arrival} (ha : a ∈ blocks) (hnot : .block a.block ∉ placed)
    (hparent : round.requests.isReady e.chain.knows a.block = true) :
    Midway e₀ peer blocks txs (insert (.block a.block) placed) (e.recordBlock env round peer a.block a.txids)
      (round.receiveBlock env.now a.block a.txids).1 where
  store := by rw [(roundOnly_recordBlock _ _ _ _ _ _).store, h.store]
  attempts := by rw [(roundOnly_recordBlock _ _ _ _ _ _).attempts, h.attempts]
  capacity := by rw [(roundOnly_recordBlock _ _ _ _ _ _).orphans, h.capacity]
  pool := by
    rw [(roundOnly_recordBlock _ _ _ _ _ _).orphans]
    exact h.pool
  current := round_recordBlock _ _ _ _ _ _
  bound := h.bound
  rests := by
    refine h.rests.receiveBlock (hready.offering.checked ha).unknown
      (h.collecting.isAwaitedBlock hready.offering h.rests.consistent ha hnot) ?_ a.txids
    rw [Requests.isReady, Bool.or_eq_true, h.chain] at hparent
    exact hparent.symm
  collecting := by
    rw [(roundOnly_recordBlock _ _ _ _ _ _).orphans]
    exact h.collecting.placeBlock hready.offering h.rests.consistent ha hnot

theorem holdBack {a : Arrival} (ha : a ∈ blocks) (hnot : .block a.block ∉ placed) :
    ∃ round', Midway e₀ peer blocks txs (insert (.block a.block) placed) (e.holdBack peer a.block) round' ∧
      round'.requests = round.requests.holdBack a.block := by
  obtain ⟨round', hround', hbound, hrequests⟩ := round_holdBack h.current peer a.block
  have hsame := roundOnly_holdBack e peer a.block
  refine ⟨round', ⟨?_, ?_, ?_, ?_, hround', hbound.trans h.bound, ?_, ?_⟩, hrequests⟩
  · rw [hsame.store, h.store]
  · rw [hsame.attempts, h.attempts]
  · rw [hsame.orphans, h.capacity]
  · rw [hsame.orphans]
    exact h.pool
  · rw [hrequests]
    exact h.rests.holdBack a.block
  · rw [hrequests, hsame.orphans]
    exact h.collecting.placeHeldBack hready.offering h.rests.consistent ha hnot

theorem processBlock_eq (env : Outlook) {a : Arrival} (ha : a ∈ blocks) (hnot : .block a.block ∉ placed) :
    e.processBlock env peer a.block =
      if round.requests.isReady e.chain.knows a.block then
        (e.recordBlock env round peer a.block a.txids).finishIfComplete env
      else (e.holdBack peer a.block, .ok ()) := by
  obtain ⟨hunknown, hwork, hproof⟩ := hready.offering.checked ha
  rw [← h.chain] at hunknown
  exact processBlock_of_bound env h.current h.bound ⟨hunknown, hwork, hproof⟩
    (h.collecting.isAwaitedBlock hready.offering h.rests.consistent ha hnot)

theorem processBlock (env : Outlook) {a : Arrival} (ha : a ∈ blocks) (hnot : .block a.block ∉ placed) :
    (e.processBlock env peer a.block).2 = .ok () ∧
      Outcome e₀ peer blocks txs (insert (.block a.block) placed) (e.processBlock env peer a.block).1
        fun _ => True := by
  rw [h.processBlock_eq hready env ha hnot]
  split
  · rename_i hparent
    exact (h.recordBlock hready env ha hnot hparent).finish_outcome hready env
  · obtain ⟨round', hround', hrequests⟩ := h.holdBack hready ha hnot
    refine ⟨rfl, Or.inl ⟨round', hround', ?_, trivial⟩⟩
    rw [hrequests, Requests.isFinished_holdBack]
    exact h.unfinished hready (Offering.block_mem_items ha) hnot

theorem processBlock_of_ready (env : Outlook) {a : Arrival} (ha : a ∈ blocks) (hnot : .block a.block ∉ placed)
    (hparent : round.requests.isReady e.chain.knows a.block = true) :
    Outcome e₀ peer blocks txs (insert (.block a.block) placed) (e.processBlock env peer a.block).1 fun round' =>
      (e.processBlock env peer a.block).1.orphans = e.orphans ∧
        round'.requests.heldBack.size ≤ round.requests.heldBack.size := by
  have hrecorded := h.recordBlock hready env ha hnot hparent
  rw [h.processBlock_eq hready env ha hnot, if_pos hparent]
  obtain ⟨-, ⟨hunfinished, hsame⟩ | hdone⟩ := hrecorded.finish hready env
  · rw [hsame]
    refine Or.inl ⟨_, hrecorded, hunfinished, (roundOnly_recordBlock _ _ _ _ _ _).orphans, ?_⟩
    exact Requests.size_heldBack_receiveBlock_le round.requests a.block a.txids
  · exact Or.inr hdone

theorem recordTx (env : Outlook) {tx : Transaction} (htx : tx ∈ txs) (hnot : .tx tx ∉ placed)
    (hawaited : round.requests.isAwaitedTx tx.txid = true) :
    Midway e₀ peer blocks txs (insert (.tx tx) placed) { e with round := e.round.map (Round.receiveTx · env.now tx) }
      (round.receiveTx env.now tx) where
  store := h.store
  attempts := h.attempts
  capacity := h.capacity
  pool := h.pool
  current := by rw [h.current]; rfl
  bound := by rw [syncPeer_receiveTx, h.bound]
  rests := by
    rw [requests_receiveTx]
    exact h.rests.receiveTx tx
  collecting := by
    rw [requests_receiveTx]
    exact h.collecting.placeTx hready.offering htx hnot hawaited

theorem addOrphan (env : Outlook) {tx : Transaction} (htx : tx ∈ txs) (hnot : .tx tx ∉ placed) :
    Midway e₀ peer blocks txs (insert (.tx tx) placed) (e.addOrphan env tx.txid (.tx tx) peer) round where
  store := h.store
  attempts := h.attempts
  capacity := by rw [← h.capacity]; exact Orphans.capacity_insert _ _ _ _ _
  pool := h.pool.insert _ _ _ _
  current := h.current
  bound := h.bound
  rests := h.rests
  collecting := h.collecting.placeInPool hready.offering h.rests.consistent h.pool
    (by rw [h.capacity]; exact hready.room) htx hnot env.now

omit hready in
theorem processTx_eq (env : Outlook) (tx : Transaction) :
    e.processTx env peer tx =
      if round.requests.isAwaitedTx tx.txid then
        ({ e with round := e.round.map (Round.receiveTx · env.now tx) } : Engine).finishIfComplete env
      else (e.addOrphan env tx.txid (.tx tx) peer, .ok ()) := by
  rw [processTx_of_bound env h.current h.bound, h.current]
  rfl

theorem processTx (env : Outlook) {tx : Transaction} (htx : tx ∈ txs) (hnot : .tx tx ∉ placed) :
    (e.processTx env peer tx).2 = .ok () ∧
      Outcome e₀ peer blocks txs (insert (.tx tx) placed) (e.processTx env peer tx).1 fun _ => True := by
  rw [h.processTx_eq env tx]
  split
  · rename_i hawaited
    exact (h.recordTx hready env htx hnot hawaited).finish_outcome hready env
  · exact ⟨rfl, Or.inl ⟨round, h.addOrphan hready env htx hnot, h.unfinished hready (Offering.tx_mem_items htx) hnot,
      trivial⟩⟩

theorem release {hash : Digest} {block : FilteredBlock} (hheld : round.requests.heldBack.get? hash = some block) :
    Midway e₀ peer blocks txs (placed \ {.block block})
      { e with round := some { round with requests :=
        { round.requests with heldBack := round.requests.heldBack.erase hash } } }
      { round with requests := { round.requests with heldBack := round.requests.heldBack.erase hash } } where
  store := h.store
  attempts := h.attempts
  capacity := h.capacity
  pool := h.pool
  current := rfl
  bound := h.bound
  rests := h.rests.of_blocks (h.rests.consistent.eraseHeldBack hash) rfl
  collecting := h.collecting.release hready.offering h.rests.consistent hheld

theorem unpool {hash : Digest} {o : Orphan} (hpooled : e.orphans.get? hash = some o) :
    Midway e₀ peer blocks txs (placed \ {o.item}) { e with orphans := e.orphans.erase hash } round where
  store := h.store
  attempts := h.attempts
  capacity := by rw [← h.capacity]; exact Orphans.capacity_erase _ _
  pool := h.pool.erase hash
  current := h.current
  bound := h.bound
  rests := h.rests
  collecting := h.collecting.unpool hready.offering h.rests.consistent hpooled

end Ready

end Midway

/-! ## After the commit -/

namespace Done

variable (h : Done e₀ peer blocks txs e)
include h

theorem releaseHeldBack (env : Outlook) : ∀ (fuel : Nat), e.releaseHeldBack env fuel = e
  | 0 => rfl
  | fuel + 1 => by
    unfold Engine.releaseHeldBack
    split
    · rfl
    rename_i round hround
    split
    · rfl
    rw [h.round hround]
    rfl

theorem useOrphan (env : Outlook) (hash : Digest) : e.useOrphan env hash = e := by
  rw [Engine.useOrphan, h.pool]

theorem retain (keep : Digest → Orphan → Bool) :
    Done e₀ peer blocks txs { e with orphans := e.orphans.retain keep } := by
  refine ⟨h.commit, h.attempts, fun hash => ?_, h.round⟩
  rw [Orphans.get?_retain, h.pool]
  rfl

theorem settle (env : Outlook) : Done e₀ peer blocks txs (e.settle env) := by
  rw [Engine.settle, resolveHeldBack, h.releaseHeldBack]
  exact h.retain _

theorem usableOrphans : e.usableOrphans = [] := by
  have hlist : e.orphans.toList = [] := by
    rw [Orphans.toList, List.filterMap_eq_nil_iff]
    intro hash _
    have := h.pool hash
    rw [Orphans.get?] at this
    rw [this]
    rfl
  rw [Engine.usableOrphans, hlist]
  rfl

theorem resolvePasses (env : Outlook) : ∀ (passes : Nat), Done e₀ peer blocks txs (e.resolvePasses env passes)
  | 0 => h
  | passes + 1 => by
    have hsettled := h.settle env
    simp only [Engine.resolvePasses, hsettled.usableOrphans]
    exact hsettled

theorem foldl_useOrphan (env : Outlook) : ∀ (hashes : List Digest), hashes.foldl (Engine.useOrphan env) e = e
  | [] => rfl
  | hash :: hashes => by
    rw [List.foldl_cons, h.useOrphan]
    exact foldl_useOrphan env hashes

end Done

/-! ## What was waiting -/

namespace Midway

variable (hready : ReadyFor e₀ peer blocks txs)
include hready

/-- **Blocks are released until none can be used.** Each release leaves fewer of them. -/
theorem releaseHeldBack (env : Outlook) : ∀ (fuel : Nat) {e : Engine} {round : Round},
    Midway e₀ peer blocks txs placed e round → round.requests.isFinished = false →
      round.requests.heldBack.size ≤ fuel →
        Outcome e₀ peer blocks txs placed (e.releaseHeldBack env fuel) fun round' =>
          (e.releaseHeldBack env fuel).orphans = e.orphans ∧ ∀ hash block,
            round'.requests.heldBack.get? hash = some block → round'.requests.isReady e₀.chain.knows block = false
  | 0, e, round, h, hunfinished, hfuel => by
    refine Or.inl ⟨round, h, hunfinished, rfl, fun hash block hget => ?_⟩
    have hnone : round.requests.heldBack.entries = [] := List.eq_nil_of_length_eq_zero (Nat.le_zero.1 hfuel)
    rw [Table.get?_eq_some_iff, hnone] at hget
    cases hget
  | fuel + 1, e, round, h, hunfinished, hfuel => by
    unfold Engine.releaseHeldBack
    simp only [h.current, h.bound]
    split
    · rename_i hnone
      rw [h.chain] at hnone
      exact Or.inl ⟨round, h, hunfinished, rfl, fun _ _ hget => Requests.releaseReady?_eq_none hnone hget⟩
    · rename_i block requests hrelease
      obtain ⟨hash, hheld, hparent, rfl⟩ := Requests.releaseReady?_eq_some hrelease
      obtain ⟨hplaced, a, ha, rfl⟩ := h.collecting.held hheld
      obtain ⟨rfl, -⟩ := h.rests.consistent.heldBack hheld
      -- the block leaves the placed items and is placed again in the same step
      have hnot : OrphanItem.block a.block ∉ placed \ {.block a.block} := by simp
      have hnext := (h.release hready hheld).processBlock_of_ready hready env ha hnot hparent
      rw [Set.insert_sdiff_self_of_mem hplaced] at hnext
      obtain ⟨round', h', hunfinished', horphans, hsize⟩ | ⟨hdone, hall⟩ := hnext
      · have hfewer := Table.size_erase (Table.contains_of_get? hheld)
        change round'.requests.heldBack.size ≤ (round.requests.heldBack.erase a.block.hash).size at hsize
        have hrest := releaseHeldBack env fuel h' hunfinished' (by omega)
        rw [horphans] at hrest
        exact hrest
      · rw [hdone.releaseHeldBack]
        exact Or.inr ⟨hdone, hall⟩

theorem settle (env : Outlook) (h : Midway e₀ peer blocks txs placed e round)
    (hunfinished : round.requests.isFinished = false) :
    Outcome e₀ peer blocks txs placed (e.settle env) fun round' =>
      (e.settle env).orphans = e.orphans ∧ ∀ hash block,
        round'.requests.heldBack.get? hash = some block → round'.requests.isReady e₀.chain.knows block = false := by
  have hsize : ((e.round.map (·.requests.heldBack.size)).getD 0) = round.requests.heldBack.size := by
    rw [h.current]
    rfl
  rw [Engine.settle, resolveHeldBack, hsize]
  obtain ⟨round', h', hunfinished', horphans, hheld⟩ | ⟨hdone, hall⟩ :=
    releaseHeldBack hready env _ h hunfinished (Nat.le_refl _)
  · -- only transactions are in the pool, and those stay
    have hkeep (hash : Digest) (o : Orphan)
        (ho : (e.releaseHeldBack env round.requests.heldBack.size).orphans.get? hash = some o) :
        (!(o.item.isBlock && (e.releaseHeldBack env round.requests.heldBack.size).chain.knows hash)) = true := by
      obtain ⟨-, tx, -, hitem, -⟩ := h'.collecting.pooled ho
      rw [hitem]
      rfl
    simp only [h'.pool.retain_eq_self hkeep]
    exact Or.inl ⟨round', h', hunfinished', horphans, hheld⟩
  · exact Or.inr ⟨hdone.retain _, hall⟩

omit hready in
theorem isUsable_eq (h : Midway e₀ peer blocks txs placed e round) (tip : Digest) {hash : Digest} {o : Orphan}
    (ho : e.orphans.get? hash = some o) : e.isUsable tip hash o = round.requests.isAwaitedTx hash := by
  obtain ⟨hpeer, tx, -, hitem, -⟩ := h.collecting.pooled ho
  simp [isUsable, h.current, hitem, h.bound, hpeer]

omit hready in
theorem mem_usableOrphans (h : Midway e₀ peer blocks txs placed e round) {hash : Digest} :
    hash ∈ e.usableOrphans ↔ e.orphans.contains hash = true ∧ round.requests.isAwaitedTx hash = true := by
  rw [Engine.mem_usableOrphans h.pool]
  constructor
  · rintro ⟨o, ho, husable⟩
    rw [h.isUsable_eq _ ho] at husable
    exact ⟨Table.contains_of_get? ho, husable⟩
  · rintro ⟨hin, hawaited⟩
    obtain ⟨o, ho⟩ := Table.contains_eq_true.1 hin
    exact ⟨o, ho, (h.isUsable_eq _ ho).trans hawaited⟩

/-- A pooled transaction that the round awaits goes into the round. -/
theorem useOrphan (env : Outlook) (h : Midway e₀ peer blocks txs placed e round) {hash : Digest}
    (hin : e.orphans.contains hash = true) (hawaited : round.requests.isAwaitedTx hash = true) :
    Outcome e₀ peer blocks txs placed (e.useOrphan env hash) fun round' =>
      (e.useOrphan env hash).orphans = e.orphans.erase hash ∧
        ∀ txid, txid ≠ hash → round.requests.isAwaitedTx txid = true → round'.requests.isAwaitedTx txid = true := by
  obtain ⟨o, ho⟩ := Table.contains_eq_true.1 hin
  obtain ⟨hpeer, tx, htx, hitem, rfl, hplaced, -⟩ := h.collecting.pooled ho
  have hout := h.unpool hready ho
  have hnot : OrphanItem.tx tx ∉ placed \ {o.item} := by simp [hitem]
  have hrecorded := hout.recordTx hready env htx hnot hawaited
  rw [hitem, Set.insert_sdiff_self_of_mem hplaced] at hrecorded
  have huse : e.useOrphan env tx.txid =
      (({ e with orphans := e.orphans.erase tx.txid } : Engine).processTx env peer tx).1 := by
    rw [Engine.useOrphan, show e.orphans.get? tx.txid = some o from ho]
    simp only [hitem, hpeer]
  rw [huse, hout.processTx_eq env tx, if_pos hawaited]
  obtain ⟨-, ⟨hunfinished, hsame⟩ | hdone⟩ := hrecorded.finish hready env
  · rw [hsame]
    refine Or.inl ⟨_, hrecorded, hunfinished, rfl, fun txid hne htxid => ?_⟩
    rw [requests_receiveTx, Requests.receiveTx_of_awaited hawaited, Requests.isAwaitedTx_iff]
    exact (List.mem_erase_of_ne hne).2 (Requests.isAwaitedTx_iff.1 htxid)
  · exact Or.inr hdone

theorem foldl_useOrphan (env : Outlook) : ∀ (hashes : List Digest) {e : Engine} {round : Round},
    Midway e₀ peer blocks txs placed e round → round.requests.isFinished = false → hashes.Nodup →
      (∀ hash ∈ hashes, e.orphans.contains hash = true ∧ round.requests.isAwaitedTx hash = true) →
        Outcome e₀ peer blocks txs placed (hashes.foldl (Engine.useOrphan env) e) fun _ =>
          (hashes.foldl (Engine.useOrphan env) e).orphans.size + hashes.length = e.orphans.size
  | [], _, round, h, hunfinished, _, _ => Or.inl ⟨round, h, hunfinished, rfl⟩
  | hash :: hashes, e, round, h, hunfinished, hnodup, husable => by
    obtain ⟨hin, hawaited⟩ := husable hash List.mem_cons_self
    obtain ⟨hnotin, hnodup⟩ := List.nodup_cons.1 hnodup
    rw [List.foldl_cons]
    obtain ⟨round', h', hunfinished', horphans, hstill⟩ | ⟨hdone, hall⟩ := h.useOrphan hready env hin hawaited
    · have hsize := Orphans.size_erase hin
      rw [← horphans] at hsize
      refine (foldl_useOrphan env hashes h' hunfinished' hnodup fun x hx => ?_).imp_left ?_
      · have hne : x ≠ hash := fun heq => hnotin (heq ▸ hx)
        obtain ⟨hxin, hxawaited⟩ := husable x (List.mem_cons_of_mem _ hx)
        refine ⟨?_, hstill x hne hxawaited⟩
        rw [horphans, Orphans.contains_erase_of_ne _ hne]
        exact hxin
      · rintro ⟨round'', h'', hunfinished'', hcount⟩
        exact ⟨round'', h'', hunfinished'', by rw [List.length_cons]; omega⟩
    · rw [hdone.foldl_useOrphan]
      exact Or.inr ⟨hdone, hall⟩

/-- **Passes over the pool** go on until nothing that waits can be used. Each pass but the last empties the pool
further. -/
theorem resolvePasses (env : Outlook) : ∀ (passes : Nat) {e : Engine} {round : Round},
    Midway e₀ peer blocks txs placed e round → round.requests.isFinished = false → e.orphans.size < passes →
      Outcome e₀ peer blocks txs placed (e.resolvePasses env passes) fun round' =>
        (∀ hash block, round'.requests.heldBack.get? hash = some block →
          round'.requests.isReady e₀.chain.knows block = false) ∧
        ∀ hash o, (e.resolvePasses env passes).orphans.get? hash = some o → round'.requests.isAwaitedTx hash = false
  | 0, _, _, _, _, hsize => absurd hsize (Nat.not_lt_zero _)
  | passes + 1, e, round, h, hunfinished, hsize => by
    simp only [Engine.resolvePasses]
    obtain ⟨round₁, h₁, hunfinished₁, horphans, hheld⟩ | ⟨hdone, hall⟩ := h.settle hready env hunfinished
    · split
      · rename_i hnone
        refine Or.inl ⟨round₁, h₁, hunfinished₁, hheld, fun hash o ho => ?_⟩
        rw [Bool.eq_false_iff]
        intro hawaited
        have hmem := h₁.mem_usableOrphans.2 ⟨Table.contains_of_get? ho, hawaited⟩
        rw [hnone] at hmem
        cases hmem
      · rename_i hsome
        have hcons : 0 < (e.settle env).usableOrphans.length :=
          List.length_pos_iff.2 fun hnil => hsome hnil
        obtain ⟨round₂, h₂, hunfinished₂, hcount⟩ | ⟨hdone, hall⟩ := foldl_useOrphan hready env _ h₁ hunfinished₁
          (nodup_usableOrphans h₁.pool) fun _ hmem => h₁.mem_usableOrphans.1 hmem
        · exact resolvePasses env passes h₂ hunfinished₂ (by rw [horphans] at hcount; omega)
        · exact Or.inr ⟨hdone.resolvePasses env passes, hall⟩
    · rw [hdone.usableOrphans]
      exact Or.inr ⟨hdone, hall⟩

/-- **After a call**, all is placed and committed, or something is still to come. -/
theorem resolveOrphans (env : Outlook) (h : Outcome e₀ peer blocks txs placed e fun _ => True) :
    (∃ round, Midway e₀ peer blocks txs placed (e.resolveOrphans env) round ∧
      ∃ item ∈ Offering.items blocks txs, item ∉ placed) ∨
        Done e₀ peer blocks txs (e.resolveOrphans env) ∧ ∀ item ∈ Offering.items blocks txs, item ∈ placed := by
  obtain ⟨round, h, hunfinished, -⟩ | ⟨hdone, hall⟩ := h
  · have hroom := h.collecting.size_le h.pool
    have hcapacity := hready.room
    rw [← h.capacity] at hcapacity
    obtain ⟨round', h', hunfinished', hheld, hpool⟩ | hdone :=
      resolvePasses hready env (e.orphans.capacity + 1) h hunfinished (by omega)
    · refine Or.inl ⟨round', h', ?_⟩
      -- were nothing still to come, the round would be finished, for nothing that waits can be used
      by_contra hmissing
      have hall (item : OrphanItem) (hitem : item ∈ Offering.items blocks txs) : item ∈ placed :=
        by_contra fun hnot => hmissing ⟨item, hitem, hnot⟩
      have hfinished := h'.collecting.finished_of_all hready.offering h'.rests.consistent hready.chain hall hheld hpool
      rw [hfinished] at hunfinished'
      cases hunfinished'
    · exact Or.inr hdone
  · exact Or.inr ⟨hdone.resolvePasses env _, hall⟩

theorem receive (env : Outlook) (h : Midway e₀ peer blocks txs placed e round) {item : OrphanItem}
    (hitem : item ∈ Offering.items blocks txs) (hnot : item ∉ placed) :
    (e.receive env peer item).2 = .ok () ∧
      ((∃ round', Midway e₀ peer blocks txs (insert item placed) (e.receive env peer item).1 round' ∧
        ∃ x ∈ Offering.items blocks txs, x ∉ insert item placed) ∨
          Done e₀ peer blocks txs (e.receive env peer item).1 ∧
            ∀ x ∈ Offering.items blocks txs, x ∈ insert item placed) := by
  rcases Offering.mem_items hitem with ⟨a, ha, rfl⟩ | ⟨tx, htx, rfl⟩
  · obtain ⟨hok, houtcome⟩ := h.processBlock hready env ha hnot
    exact ⟨hok, resolveOrphans hready env houtcome⟩
  · obtain ⟨hok, houtcome⟩ := h.processTx hready env htx hnot
    exact ⟨hok, resolveOrphans hready env houtcome⟩

end Midway

/-! ## The whole run -/

/-- A peer delivers items, each with its own view of the outside. -/
def delivering (peer : PeerId) (deliveries : List (Outlook × OrphanItem)) : List Turn :=
  deliveries.map fun d => .call d.1 (.deliver peer d.2)

/-- The offer makes the round ask for all blocks. -/
theorem ReadyFor.offer (hready : ReadyFor e₀ peer blocks txs) (env : Outlook) {items : List InventoryItem}
    (hitems : ((items.filter InventoryItem.isBlock).map InventoryItem.hash).Perm
      (blocks.map fun a => a.block.hash)) :
    ∃ round, Midway e₀ peer blocks txs ∅ (e₀.call env (.offer peer items)).1 round := by
  obtain ⟨round, hround, hbound, hempty⟩ := hready.round
  have ho := hready.offering
  simp only [Engine.call, receiveInventory]
  generalize (items.filter InventoryItem.isBlock).map InventoryItem.hash = hashes at hitems
  have hmem (hash : Digest) : hash ∈ hashes ↔ ∃ a ∈ blocks, a.block.hash = hash := by
    rw [hitems.mem_iff, List.mem_map]
  obtain ⟨first, rest, hblocks⟩ := List.exists_cons_of_ne_nil ho.ne_nil
  have hfirst : first.block.hash ∈ hashes := (hmem _).2 ⟨first, by rw [hblocks]; exact List.mem_cons_self, rfl⟩
  have hne : hashes.isEmpty = false := List.isEmpty_eq_false_iff.2 (List.ne_nil_of_mem hfirst)
  have hunknown : hashes.filter (!e₀.chain.knows ·) = hashes := by
    refine List.filter_eq_self.2 fun hash hx => ?_
    obtain ⟨a, ha, rfl⟩ := (hmem hash).1 hx
    rw [(ho.checked ha).unknown]
    rfl
  have hfresh : (Requests.empty.track hashes).2.isEmpty = false :=
    List.isEmpty_eq_false_iff.2 (List.ne_nil_of_mem ((Requests.mem_newBlocks _ _ _).2 ⟨hfirst, rfl⟩))
  have hrests : (Requests.empty.track hashes).1.RestsOn e₀.chain := (Requests.RestsOn.empty _).track hashes
  have hcollecting : Collecting peer blocks txs ∅ (Requests.empty.track hashes).1 e₀.orphans :=
    .of_offer hmem fun hash => Table.get?_of_size_eq_zero hready.pool.1 hash
  have hextended : ∃ round', Midway e₀ peer blocks txs ∅ (e₀.extendRound env peer round hashes) round' := by
    simp only [extendRound, hempty, hne, hfresh, Bool.false_and, Bool.false_eq_true, if_false]
    exact ⟨_, rfl, rfl, rfl, .of_empty hready.pool.1 hready.pool.2, rfl, hbound, hrests, hcollecting⟩
  rw [if_neg (by rw [hne]; exact Bool.false_ne_true)]
  have hoffer : e₀.processOffer env peer hashes = e₀.extendRound env peer round hashes := by
    simp only [processOffer, hunknown, hround, hbound, if_true]
  obtain ⟨round', h'⟩ := hextended
  have hnot : OrphanItem.block first.block ∉ (∅ : Set OrphanItem) := Set.notMem_empty _
  have hitem : .block first.block ∈ Offering.items blocks txs :=
    Offering.block_mem_items (by rw [hblocks]; exact List.mem_cons_self)
  rw [hoffer]
  obtain ⟨round'', h'', -⟩ | ⟨-, hall⟩ :=
    Midway.resolveOrphans hready env (Or.inl ⟨round', h', h'.unfinished hready hitem hnot, trivial⟩)
  · exact ⟨round'', h''⟩
  · exact absurd (hall _ hitem) hnot

/-- **The deliveries one after the other.** The last one, and no other, leads to the commit. -/
theorem Midway.run (hready : ReadyFor e₀ peer blocks txs) : ∀ (deliveries : List (Outlook × OrphanItem))
    {placed : Set OrphanItem} {e : Engine} {round : Round}, Midway e₀ peer blocks txs placed e round →
      (deliveries.map Prod.snd).Nodup → (∀ d ∈ deliveries, d.2 ∈ Offering.items blocks txs ∧ d.2 ∉ placed) →
      (∀ item ∈ Offering.items blocks txs, item ∈ placed ∨ item ∈ deliveries.map Prod.snd) →
        (∀ pre d post, deliveries = pre ++ d :: post →
          ((e.run (delivering peer pre)).receive d.1 peer d.2).2 = .ok () ∧
            ∃ placed' round', Midway e₀ peer blocks txs placed' (e.run (delivering peer pre)) round') ∧
        (deliveries ≠ [] → Done e₀ peer blocks txs (e.run (delivering peer deliveries)))
  | [], _, _, _, _, _, _, _ => ⟨fun pre d post hsplit => by simp at hsplit, fun hne => absurd rfl hne⟩
  | d :: ds, placed, e, round, h, hnodup, hnew, hall => by
    obtain ⟨hnotin, hnodup⟩ := List.nodup_cons.1 hnodup
    obtain ⟨hitem, hnot⟩ := hnew d List.mem_cons_self
    obtain ⟨hok, hnext⟩ := h.receive hready d.1 hitem hnot
    have hnew' (d' : Outlook × OrphanItem) (hd' : d' ∈ ds) :
        d'.2 ∈ Offering.items blocks txs ∧ d'.2 ∉ insert d.2 placed := by
      obtain ⟨hitem', hnot'⟩ := hnew d' (List.mem_cons_of_mem _ hd')
      refine ⟨hitem', fun hin => ?_⟩
      rcases Set.mem_insert_iff.1 hin with heq | hin
      · exact hnotin (heq ▸ List.mem_map_of_mem hd')
      · exact hnot' hin
    obtain ⟨round', h', x, hx, hxnot⟩ | ⟨hdone, hdoneall⟩ := hnext
    · obtain ⟨hrest, hlast⟩ := run hready ds h' hnodup hnew' fun item hmem => by
        rcases hall item hmem with hin | hin
        · exact Or.inl (Set.mem_insert_of_mem _ hin)
        · rcases List.mem_cons.1 hin with heq | hin
          · exact Or.inl (heq ▸ Set.mem_insert _ _)
          · exact Or.inr hin
      refine ⟨fun pre d' post hsplit => ?_, fun _ => hlast fun hnil => hxnot ?_⟩
      · cases pre with
        | nil =>
          cases hsplit
          exact ⟨hok, placed, round, h⟩
        | cons x pre =>
          cases hsplit
          exact hrest pre d' post rfl
      · subst hnil
        rcases hall x hx with hin | hin
        · exact Set.mem_insert_of_mem _ hin
        · rw [List.mem_singleton.1 hin]
          exact Set.mem_insert _ _
    · -- the commit comes only once all is placed, so this was the last delivery
      have hnil : ds = [] := List.eq_nil_iff_forall_not_mem.2 fun d' hd' =>
        (hnew' d' hd').2 (hdoneall _ (hnew' d' hd').1)
      subst hnil
      refine ⟨fun pre d' post hsplit => ?_, fun _ => hdone⟩
      cases pre with
      | nil =>
        cases hsplit
        exact ⟨hok, placed, round, h⟩
      | cons x pre => simp at hsplit

/-- **Catching up does not depend on the order of deliveries.** Until the last one every delivery leaves the chain
alone, and with the last one the whole offering is committed. -/
theorem catchUp_any_order (hready : ReadyFor e₀ peer blocks txs) (env : Outlook) {items : List InventoryItem}
    (hitems : ((items.filter InventoryItem.isBlock).map InventoryItem.hash).Perm (blocks.map fun a => a.block.hash))
    {deliveries : List (Outlook × OrphanItem)}
    (hdeliveries : (deliveries.map Prod.snd).Perm (Offering.items blocks txs)) :
    (∀ pre d post, deliveries = pre ++ d :: post →
      let e := e₀.run (.call env (.offer peer items) :: delivering peer pre)
      (e.receive d.1 peer d.2).2 = .ok () ∧ e.store = e₀.store ∧ e.attempts = e₀.attempts) ∧
    let e := e₀.run (.call env (.offer peer items) :: delivering peer deliveries)
    (∃ round, e.attempts = e₀.attempts ++ [⟨round, .ok ()⟩] ∧ round.requests.batch = Offering.batch blocks txs) ∧
    (∃ first ∈ blocks.head?, ∃ below above, e₀.chain.main = below ++ first.block.previous :: above ∧
      e.chain.main = below ++ first.block.previous :: blocks.map fun a => a.block.hash) ∧
    (∀ a ∈ blocks, e.chain.blockTxids.get? a.block.hash = some a.txids) ∧
    ∀ tx ∈ txs, e.chain.confirmed.get? tx.txid = some tx := by
  obtain ⟨round, hstart⟩ := hready.offer env hitems
  have ho := hready.offering
  obtain ⟨hbefore, hlast⟩ := Midway.run hready deliveries hstart (hdeliveries.nodup_iff.2 ho.nodup_items)
    (fun d hd => ⟨hdeliveries.mem_iff.1 (List.mem_map_of_mem hd), Set.notMem_empty _⟩)
    (fun item hitem => Or.inr (hdeliveries.mem_iff.2 hitem))
  refine ⟨fun pre d post hsplit => ?_, ?_⟩
  · obtain ⟨hok, placed', round', h'⟩ := hbefore pre d post hsplit
    exact ⟨hok, h'.store, h'.attempts⟩
  · have hne : deliveries ≠ [] := by
      rintro rfl
      obtain ⟨a, rest, hblocks⟩ := List.exists_cons_of_ne_nil ho.ne_nil
      rw [hblocks] at hdeliveries
      exact absurd hdeliveries.symm.eq_nil (by simp [Offering.items])
    have hdone := hlast hne
    obtain ⟨events, hcommit⟩ := hdone.commit
    obtain ⟨round', hattempts, -, hbatch⟩ := hdone.attempts
    exact ⟨⟨round', hattempts, hbatch⟩, ho.commit hcommit⟩

end Engine

/-! ## Backwards -/

namespace Sample

/-- Two blocks, the first with the payment. -/
def line : List Arrival := [⟨paying, [payment.txid]⟩, ⟨child paying.hash 3, []⟩]

def waiting : Engine := { engine with round := some (.bulk peer [] 0) }

def backwards : List (Outlook × OrphanItem) :=
  [(outlook, .block (child paying.hash 3)), (outlook, .tx payment), (outlook, .block paying)]

theorem checks_line :
    (∀ a ∈ line, waiting.chain.knows a.block.hash = false ∧ a.block.header.meetsTarget = true ∧
      a.block.provedTxids = .ok a.txids) ∧ (line.map fun a => a.block.hash).Nodup := by
  decide +kernel

theorem offering_line : Offering waiting.chain line [payment] where
  ne_nil := List.cons_ne_nil _ _
  line := List.isChain_pair.2 rfl
  parent a ha := by
    cases ha
    exact List.mem_singleton.2 hash_genesis.symm
  checked ha :=
    have hchecks := checks_line.1 _ ha
    ⟨hchecks.1, hchecks.2.1, hchecks.2.2⟩
  nodup_blocks := checks_line.2
  nodup_txs := List.pairwise_singleton _ _
  named txid := by simp [line]

theorem readyFor_waiting : Engine.ReadyFor waiting peer line [payment] where
  chain := .ofGenesis genesis
  isOpen := rfl
  disk := rfl
  round := ⟨_, rfl, rfl, rfl⟩
  pool := ⟨rfl, rfl⟩
  room := by decide
  offering := offering_line

end Sample

namespace Engine

open Sample

theorem catchUp_backwards :
    ReadyFor waiting peer line [payment] ∧
      let e := waiting.run (.call outlook (.offer peer (line.map fun a => .filteredBlock a.block.hash)) ::
        delivering peer backwards)
      e.chain.main = genesisHash :: line.map (fun a => a.block.hash) ∧
        e.chain.confirmed.get? payment.txid = some payment := by
  have hdeliveries : (backwards.map Prod.snd).Perm (Offering.items line [payment]) :=
    @List.perm_append_comm OrphanItem [.block (child paying.hash 3), .tx payment] [.block paying]
  have hitems : (((line.map fun a => InventoryItem.filteredBlock a.block.hash).filter InventoryItem.isBlock).map
      InventoryItem.hash).Perm (line.map fun a => a.block.hash) := List.Perm.refl _
  obtain ⟨-, -, ⟨first, hfirst, below, above, hbefore, hafter⟩, -, htxs⟩ :=
    catchUp_any_order readyFor_waiting outlook hitems hdeliveries
  refine ⟨readyFor_waiting, ?_, htxs payment List.mem_cons_self⟩
  cases hfirst
  cases below with
  | nil => exact hafter
  | cons x below =>
    change [genesis.hash] = _ at hbefore
    simp at hbefore

end Engine
end LightClient
