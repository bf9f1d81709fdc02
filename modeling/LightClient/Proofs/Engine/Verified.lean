import LightClient.Proofs.Engine.Orderly
/-!
# Nothing unverified is committed

The chain itself checks neither the work of a block nor the proofs of its transactions. The engine does, before a block
is taken into a round (`Checked`), and the round keeps to what was checked (`Requests.Proven`). So a chain to which only
the engine commits has enough work in every block and a proof for every transaction (`Reachable.verified`).
-/
namespace LightClient

/-- A block that the engine may hand to the chain. -/
structure ConfirmedBlock.Checked (b : ConfirmedBlock) : Prop where
  work : b.block.header.meetsTarget = true
  proved {tx : Transaction} : tx ∈ b.transactions → ∃ named, b.block.provedTxids = .ok named ∧ tx.txid ∈ named

namespace Chain

/-- Above the genesis block every header has enough work, and every transaction that came with a block is named by a
proof under its header. -/
structure Verified (genesis : Digest) (c : Chain) : Prop where
  genesis_first : c.main.head? = some genesis
  work {hash : Digest} : hash ∈ c.main.tail → ∃ header, c.headers.get? hash = some header ∧ header.meetsTarget = true
  proved {hash : Digest} {txids : List Digest} {txid : Digest} : c.blockTxids.get? hash = some txids → txid ∈ txids →
    ∃ block : FilteredBlock, c.headers.get? hash = some block.header ∧
      ∃ named, block.provedTxids = .ok named ∧ txid ∈ named
  confirmed {txid : Digest} {tx : Transaction} : c.confirmed.get? txid = some tx →
    tx.txid = txid ∧ ∃ hash ∈ c.main.tail, txid ∈ c.recorded hash

namespace Verified

variable {g : Digest} {c : Chain}

theorem ofGenesis (header : Header) : (Chain.ofGenesis header).Verified header.hash where
  genesis_first := rfl
  work h := by cases h
  proved h := by cases h
  confirmed h := by cases h

theorem congr {c' : Chain} (h : c.Verified g) (hsame : c.SameBlocks c') : c'.Verified g := by
  cases c' with
  | mk headers main blockTxids confirmed unconfirmed watched isClosed =>
  obtain ⟨hmain, hheaders, hrecords, hconfirmed⟩ := hsame
  simp only at hmain hheaders hrecords hconfirmed
  subst hmain hheaders hrecords hconfirmed
  exact ⟨h.genesis_first, h.work, h.proved, h.confirmed⟩

/-- What stays of the chain is untouched, and no transaction of a lost block stays confirmed. -/
theorem rollBack (h : c.Verified g) (hc : c.WellFormed) {kept : Nat} (hkept : 0 < kept) :
    (c.rollBack kept).1.Verified g := by
  constructor
  case genesis_first =>
    rw [main_rollBack, List.head?_take, if_neg (by omega)]
    exact h.genesis_first
  case work =>
    intro hash hmem
    rw [main_rollBack, mem_tail_take hc.nodup_main hkept] at hmem
    rw [headers_rollBack, if_neg hmem.2]
    exact h.work hmem.1
  case proved =>
    intro hash txids txid hget hmem
    rw [blockTxids_rollBack] at hget
    split at hget
    · cases hget
    · rename_i hstays
      rw [headers_rollBack, if_neg hstays]
      exact h.proved hget hmem
  case confirmed =>
    intro txid tx hget
    rw [confirmed_rollBack] at hget
    split at hget
    · cases hget
    · rename_i hstays
      obtain ⟨htxid, hash, hmem, hrecorded⟩ := h.confirmed hget
      have hnot : hash ∉ c.main.drop kept := fun hd => hstays ⟨hash, hd, hrecorded⟩
      refine ⟨htxid, hash, ?_, ?_⟩
      · rw [main_rollBack, mem_tail_take hc.nodup_main hkept]
        exact ⟨hmem, hnot⟩
      · rw [recorded, blockTxids_rollBack, if_neg hnot]
        exact hrecorded

theorem connect (h : c.Verified g) (hc : c.WellFormed) {b : ConfirmedBlock} (hb : ConfirmedBlock.Checked b)
    (hnew : c.knows b.block.hash = false) : (c.connect b).1.Verified g := by
  have htail (hash : Digest) : hash ∈ (c.connect b).1.main.tail ↔ hash ∈ c.main.tail ∨ hash = b.block.hash := by
    rw [main_connect, List.tail_append_of_ne_nil hc.main_ne_nil, List.mem_append, List.mem_singleton]
  constructor
  case genesis_first =>
    rw [main_connect, List.head?_append_of_ne_nil _ hc.main_ne_nil]
    exact h.genesis_first
  case work =>
    intro hash hmem
    rw [headers_connect]
    split
    · exact ⟨_, rfl, hb.work⟩
    · rename_i hne
      exact h.work (((htail hash).1 hmem).resolve_right hne)
  case proved =>
    intro hash txids txid hget hmem
    rw [blockTxids_connect] at hget
    rw [headers_connect]
    split at hget
    · rename_i hhash
      cases hget
      obtain ⟨tx, htx, rfl⟩ := List.mem_map.1 hmem
      rw [if_pos hhash]
      -- the stored header differs from the delivered one in its height, which no proof looks at
      exact ⟨⟨{ b.block.header with height := c.main.length }, b.block.proof⟩, rfl, hb.proved htx⟩
    · rename_i hne
      rw [if_neg hne]
      exact h.proved hget hmem
  case confirmed =>
    intro txid tx hget
    rw [confirmed_connect, Option.or_eq_some_iff] at hget
    rcases hget with hfind | ⟨-, hget⟩
    · have htxid : tx.txid = txid := by simpa using List.find?_some hfind
      refine ⟨htxid, b.block.hash, (htail _).2 (Or.inr rfl), ?_⟩
      rw [recorded, blockTxids_connect, if_pos rfl, Option.getD_some, ← htxid]
      exact List.mem_map_of_mem (List.mem_reverse.1 (List.mem_of_find?_eq_some hfind))
    · obtain ⟨htxid, hash, hmem, hrecorded⟩ := h.confirmed hget
      refine ⟨htxid, hash, (htail _).2 (Or.inl hmem), ?_⟩
      have hne : hash ≠ b.block.hash := by
        rintro rfl
        rw [(hc.knows_iff _).2 (List.mem_of_mem_tail hmem)] at hnew
        cases hnew
      rw [recorded, blockTxids_connect, if_neg hne]
      exact hrecorded

theorem commit {c' : Chain} {batch : List ConfirmedBlock} {events : List ChainEvent} (h : c.Verified g)
    (hc : c.WellFormed) (hnodup : (batch.map fun b => b.block.hash).Nodup)
    (hbatch : ∀ b ∈ batch, ConfirmedBlock.Checked b) (hcommit : c.commit batch = .ok (c', events)) :
    c'.WellFormed ∧ c'.Verified g :=
  commit_induction hc hnodup hcommit (fun _ hkept => h.rollBack hc hkept)
    (fun _ b hb hwf hnew _ hd => hd.connect hwf (hbatch b hb) hnew)

end Verified
end Chain

namespace Requests

/-- Every block here has enough work, and its transactions are those that its proof names. -/
def Proven (r : Requests) : Prop :=
  ∀ hash a, r.blocks.get? hash = some a → a.block.header.meetsTarget = true ∧ a.block.provedTxids = .ok a.txids

theorem Proven.checked {r : Requests} (hr : r.Proven) (h : r.Consistent) (hf : r.IsForest) {b : ConfirmedBlock}
    (hb : b ∈ r.batch) : ConfirmedBlock.Checked b := by
  obtain ⟨x, hx, rfl⟩ := List.mem_map.1 hb
  obtain ⟨hwork, hproof⟩ := hr _ _ ((mem_ordered h hf).1 hx)
  refine ⟨hwork, fun htx => ⟨x.2.txids, hproof, ?_⟩⟩
  obtain ⟨txid, hmem, hget⟩ := List.mem_filterMap.1 htx
  rw [h.tx_txid hget]
  exact hmem

theorem Proven.of_blocks {r r' : Requests} (hr : r.Proven) (hblocks : r'.blocks = r.blocks) : r'.Proven := by
  intro hash a hget
  rw [hblocks] at hget
  exact hr hash a hget

end Requests

namespace Engine

theorem RequestMove.proven {given : PeerId → OrphanItem → Prop} {c : Chain} {bound : Option PeerId} {r r' : Requests}
    (h : RequestMove given c bound r r') (hr : r.Proven) : r'.Proven := by
  cases h with
  | ask _ => exact hr.of_blocks (by rw [Requests.track_fst])
  | hold _ _ => exact hr.of_blocks (Requests.blocks_holdBack _ _)
  | release => exact hr.of_blocks rfl
  | tx _ _ _ => exact hr.of_blocks (Requests.blocks_receiveTx _ _)
  | block _ _ hchecked hawaited _ =>
    rw [Requests.receiveBlock_of_awaited hawaited]
    intro hash a hget
    obtain ⟨-, rfl⟩ | ⟨-, hget⟩ := Table.get?_insert_eq_some.1 hget
    · exact ⟨hchecked.work, hchecked.proof⟩
    · exact hr hash a hget

theorem stable_proven : Stable Chain.WellFormed fun c r => r.RestsOn c ∧ r.Proven where
  chain_congr := Chain.WellFormed.congr
  congr hr hsame := ⟨hr.1.congr hsame, hr.2⟩
  empty c := ⟨.empty c, fun _ _ hget => by cases hget⟩
  within hc hr hmove := ⟨hmove.restsOn hc hr.1, hmove.proven hr.2⟩
  commit hc hr hcommit := stable_orderly.commit hc hr.1 hcommit

theorem stable_verified (g : Digest) :
    Stable (fun c => c.WellFormed ∧ c.Verified g) (fun c r => r.RestsOn c ∧ r.Proven) where
  chain_congr hc hsame := ⟨hc.1.congr hsame, hc.2.congr hsame⟩
  congr := stable_proven.congr
  empty := stable_proven.empty
  within hc := stable_proven.within hc.1
  commit hc hr hcommit := hc.2.commit hc.1 (Requests.nodup_batch hr.1.consistent hr.1.forest)
    (fun _ hb => hr.2.checked hr.1.consistent hr.1.forest hb) hcommit

/-- **Nothing unverified is committed** to a chain that grows from its genesis block by the engine alone. -/
theorem Reachable.verified {genesis : Header} {e : Engine} (he : Reachable (.ofGenesis genesis) e) :
    e.chain.Verified genesis.hash :=
  ((stable_verified genesis.hash).reachable ⟨.ofGenesis genesis, .ofGenesis genesis⟩ he).chain.2

end Engine

namespace Sample

/-- The block and then its transaction come from a peer to which no round is bound. -/
def payTurns : List Turn :=
  [.call ⟨0, []⟩ (.deliver peer (.block paying)), .call ⟨0, []⟩ (.deliver peer (.tx payment))]

theorem chain_payTurns :
    (engine.run payTurns).chain.main.length = 2 ∧
      (engine.run payTurns).chain.confirmed.contains payment.txid = true := by
  decide +kernel

end Sample

namespace Engine

open Sample

theorem verified_payTurns :
    Reachable (.ofGenesis genesis) (engine.run payTurns) ∧ (engine.run payTurns).chain.main.length = 2 ∧
      (engine.run payTurns).chain.confirmed.contains payment.txid = true ∧
      (engine.run payTurns).chain.Verified genesis.hash :=
  have hreachable : Reachable (.ofGenesis genesis) (engine.run payTurns) := ⟨engine, payTurns, isNew_engine, rfl⟩
  ⟨hreachable, chain_payTurns.1, chain_payTurns.2, hreachable.verified⟩

end Engine
end LightClient
