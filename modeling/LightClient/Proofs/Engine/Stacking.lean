import Mathlib.Data.List.Perm.Subperm
import LightClient.Proofs.Chain.Histories
import LightClient.Proofs.Engine.Faults
import LightClient.Proofs.Engine.Offender
/-!
# Blocks in any order, one by one

While nobody is ahead of us, a block on the tip is committed by itself, in a round of its own, and any other block waits
in the pool. So of a line of blocks that is delivered in whatever order, each block is committed as soon as the one
below it is (`stack_any_order`).

`Stacking` says where the blocks are that are not committed yet: the pool keeps those that have been delivered. Only
the lowest of them can lie on the tip, so a pass over the pool uses one block at most (`Stacking.mem_usableOrphans`),
and there are passes enough for a pool that is full. `Connected` says what has become of the chain.
-/
namespace LightClient

open Chain

/-- A block without any transactions of ours. -/
def bare (b : FilteredBlock) : ConfirmedBlock := ⟨b, []⟩

/-! ## A round for one block -/

theorem Requests.receiveBlock_ofHashes (b : FilteredBlock) :
    (ofHashes [b.hash]).receiveBlock b [] =
      ({ empty with requested := [b.hash], blocks := (∅ : Table Digest Arrival).insert b.hash ⟨b, []⟩ }, []) := by
  have hawaited : (ofHashes [b.hash]).isAwaitedBlock b.hash = true := isAwaitedBlock_iff.2 List.mem_cons_self
  have herase : (∅ : Table Digest FilteredBlock).erase b.hash = ∅ := rfl
  rw [receiveBlock_of_awaited hawaited]
  simp [ofHashes, track, isTracked, isAwaitedBlock, hasBlock, empty, trackOne, newTxids, awaitTxs, herase]

namespace Round

/-- A tip round that has its block, and needs no transactions for it. -/
def alone (b : FilteredBlock) (peer : PeerId) (now : Nat) : Round :=
  { Round.tip b.hash peer now with
    requests :=
      { Requests.empty with requested := [b.hash], blocks := (∅ : Table Digest Arrival).insert b.hash ⟨b, []⟩ } }

theorem receiveBlock_tip (b : FilteredBlock) (peer : PeerId) (now : Nat) :
    (Round.tip b.hash peer now).receiveBlock now b [] = (alone b peer now, []) := by
  rw [receiveBlock_eq]
  simp only [Round.tip, alone, Requests.receiveBlock_ofHashes]

theorem batch_alone {b : FilteredBlock} (hne : b.previous ≠ b.hash) (peer : PeerId) (now : Nat) :
    (alone b peer now).requests.batch = [bare b] := by
  simp [alone, Requests.batch, Requests.ordered, Requests.arrivals, Requests.hasBlock, Requests.familyAmong,
    Requests.childrenAmong, Table.get?_insert, Table.contains_insert, hne, bare]

end Round

namespace Engine

/-- No connected peer is ahead of the chain. -/
def Leads (env : Outlook) (c : Chain) : Prop :=
  ∀ peer ∈ env.peers, peer.isEstablished = true → peer.height ≤ c.height

theorem Leads.candidates_eq_nil {env : Outlook} {c : Chain} (h : Leads env c) (exclude : Option PeerId) :
    PeerPolicy.candidates env.peers c.height exclude = [] := by
  rw [List.eq_nil_iff_forall_not_mem]
  intro peer hmem
  obtain ⟨hpeer, hestablished, hahead, -⟩ := PeerPolicy.mem_candidates.1 hmem
  exact Nat.not_lt.2 (h peer hpeer hestablished) hahead

/-- The blocks, and nothing else, have been put on the chain in this order, each by itself and at the first attempt. -/
structure Connected (blocks : List FilteredBlock) (e e' : Engine) : Prop where
  chain : e'.chain = (blocks.map bare).foldl (fun c b => (c.connect b).1) e.chain
  events : e'.store.events = e.store.events ++
    (blocks.zipIdx e.chain.main.length).map fun b => .connected { b.1.header with height := b.2 }
  outages : e'.store.outages = e.store.outages
  attempts : ∃ attempts, e'.attempts = e.attempts ++ attempts ∧
    attempts.map (·.round.requests.batch) = blocks.map ([bare ·]) ∧ ∀ a ∈ attempts, a.result = .ok ()

namespace Connected

variable {blocks above : List FilteredBlock} {e e₁ e' : Engine}

theorem same (hstore : e'.store = e.store) (hattempts : e'.attempts = e.attempts) : Connected [] e e' where
  chain := by
    rw [Engine.chain, hstore]
    rfl
  events := by
    rw [hstore]
    exact (List.append_nil _).symm
  outages := by rw [hstore]
  attempts := ⟨[], by rw [hattempts, List.append_nil], rfl, fun _ h => absurd h List.not_mem_nil⟩

theorem main (h : Connected blocks e e') : e'.chain.main = e.chain.main ++ blocks.map FilteredBlock.hash := by
  rw [h.chain, main_connectAll, List.map_map]
  rfl

theorem trans (h : Connected blocks e e₁) (h' : Connected above e₁ e') : Connected (blocks ++ above) e e' where
  chain := by rw [h'.chain, h.chain, List.map_append, List.foldl_append]
  events := by
    have hlength : e₁.chain.main.length = e.chain.main.length + blocks.length := by
      rw [h.main, List.length_append, List.length_map]
    rw [h'.events, h.events, hlength, List.zipIdx_append, List.map_append, List.append_assoc]
  outages := h'.outages.trans h.outages
  attempts := by
    obtain ⟨first, hfirst, hbatches, hok⟩ := h.attempts
    obtain ⟨second, hsecond, hbatches', hok'⟩ := h'.attempts
    refine ⟨first ++ second, by rw [hsecond, hfirst, List.append_assoc], ?_, fun a ha => ?_⟩
    · rw [List.map_append, List.map_append, hbatches, hbatches']
    · exact (List.mem_append.1 ha).elim (hok a) (hok' a)

/-- A different round or pool at the start makes no difference. -/
theorem of_same (h : Connected blocks e₁ e') (hstore : e₁.store = e.store) (hattempts : e₁.attempts = e.attempts) :
    Connected blocks e e' := (same hstore hattempts).trans h

theorem leads (h : Connected blocks e e') {env : Outlook} (hleads : Leads env e.chain) : Leads env e'.chain := by
  have hheight : e.chain.height ≤ e'.chain.height := by
    rw [height, height, h.main, List.length_append]
    omega
  exact fun peer hmem hestablished => Nat.le_trans (hleads peer hmem hestablished) hheight

end Connected

/-! ## A block on the tip -/

theorem recordBlock_of_receiveBlock (env : Outlook) {e : Engine} {round round' : Round} (peer : PeerId)
    {block : FilteredBlock} {txids : List Digest} (h : round.receiveBlock env.now block txids = (round', [])) :
    e.recordBlock env round peer block txids = { e with round := some round' } := by
  simp only [recordBlock, h, List.isEmpty_nil, if_true]

theorem processBlock_of_tip (env : Outlook) {e : Engine} (hc : e.chain.WellFormed) (hround : e.round = none)
    {b : FilteredBlock} (hunknown : e.chain.knows b.hash = false) (hwork : b.header.meetsTarget = true)
    (hproof : b.provedTxids = .ok []) (hparent : b.previous = e.chain.tip.hash) (peer : PeerId) :
    e.processBlock env peer b =
      ({ e with round := some (.alone b peer env.now) } : Engine).finishIfComplete env := by
  have htip := (hc.ne_tip hunknown).symm
  have hrecord := recordBlock_of_receiveBlock env (e := { e with round := some (.tip b.hash peer env.now) }) peer
    (Round.receiveBlock_tip b peer env.now)
  simp only [processBlock, hunknown, checkWork_eq_ok_iff.2 hwork, hproof, syncPeer, hround, Option.bind_none,
    placeAtTip, htip, hparent, ne_eq, not_true, if_false, Bool.false_eq_true]
  rw [acceptBlock_of_round rfl, hrecord]

/-- What a commit of a single block leaves of the store. -/
def withBlock (s : Store) (b : FilteredBlock) : Store :=
  { s with chain := (s.chain.connectAll [bare b]).1, events := s.events ++ (s.chain.connectAll [bare b]).2 }

theorem Connected.one {e : Engine} {b : FilteredBlock} {round : Round} (hbatch : round.requests.batch = [bare b]) :
    Connected [b] e ((e.attempt round (withBlock e.store b) (.ok ())).closeRound round) where
  chain := connectAll_fst e.chain [bare b]
  events := by
    change e.store.events ++ (e.chain.connectAll [bare b]).2 = _
    rw [connectAll_eq]
    rfl
  outages := rfl
  attempts := ⟨[⟨round, .ok ()⟩], rfl, by simp [hbatch], by simp⟩

/-- The round of a single block is committed, and nothing follows from it while nobody is ahead of us. -/
theorem finishIfComplete_alone (env : Outlook) {e : Engine} {b : FilteredBlock} {peer : PeerId} {now : Nat}
    (hround : e.round = some (.alone b peer now)) (hfits : e.chain.Fits [bare b]) (hne : b.previous ≠ b.hash)
    (hopen : e.chain.isClosed = false) (hdisk : e.store.outages = 0) (hleads : Leads env e.chain) :
    (e.finishIfComplete env).2 = .ok () ∧ Connected [b] e (e.finishIfComplete env).1 ∧
      (e.finishIfComplete env).1.round = none ∧ (e.finishIfComplete env).1.orphans = e.orphans := by
  have hbatch := Round.batch_alone hne peer now
  have hfinished : (some (Round.alone b peer now)).filter (·.requests.isFinished) = some (.alone b peer now) :=
    Option.filter_some_pos rfl
  have hfree : (Round.alone b peer now).syncPeer = none := rfl
  have hcommit : e.store.commit (Round.alone b peer now).requests.batch = (withBlock e.store b, .ok ()) := by
    rw [hbatch]
    exact Store.commit_of_ok hdisk (hfits.commit hopen)
  have hconnected := Connected.one (e := e) hbatch
  have hbehind := (hconnected.leads hleads).candidates_eq_nil none
  simp only [finishIfComplete, hround, hfinished, hcommit, hfree, startSync_of_behind hbehind, Option.isSome_none,
    Bool.and_false, Bool.false_eq_true, if_false]
  exact ⟨trivial, hconnected, rfl, rfl⟩

end Engine

/-! ## Where the blocks are -/

/-- Those of the blocks that are not missing are in the pool, and nothing else is. There is room for all but one. -/
structure Orphans.Keeps (pool : Orphans) (rest missing : List FilteredBlock) : Prop where
  consistent : pool.Consistent
  size_le : pool.size ≤ pool.capacity
  room : rest.length ≤ pool.capacity + 1
  nodup : (rest.map FilteredBlock.hash).Nodup
  subset : missing ⊆ rest
  pooled {hash : Digest} {o : Orphan} : pool.get? hash = some o →
    ∃ b ∈ rest, b ∉ missing ∧ b.hash = hash ∧ o.item = .block b
  here {b : FilteredBlock} : b ∈ rest → b ∉ missing → pool.contains b.hash = true

namespace Orphans.Keeps

variable {pool : Orphans} {rest missing : List FilteredBlock} {b low : FilteredBlock}

theorem eq_of_hash (h : pool.Keeps rest missing) {b' : FilteredBlock} (hb : b ∈ rest) (hb' : b' ∈ rest)
    (heq : b.hash = b'.hash) : b = b' := List.inj_on_of_nodup_map h.nodup hb hb' heq

theorem mem_queue (h : pool.Keeps rest missing) {hash : Digest} (hmem : hash ∈ pool.queue) :
    ∃ b ∈ rest, b ∉ missing ∧ b.hash = hash := by
  obtain ⟨o, ho⟩ := Table.contains_eq_true.1 ((h.consistent.mem_queue hash).1 hmem)
  obtain ⟨b, hb, hhere, hhash, -⟩ := h.pooled ho
  exact ⟨b, hb, hhere, hhash⟩

theorem not_mem_queue (h : pool.Keeps rest missing) (hb : b ∈ missing) : b.hash ∉ pool.queue := by
  intro hmem
  obtain ⟨b', hb', hhere, hhash⟩ := h.mem_queue hmem
  rw [h.eq_of_hash hb' (h.subset hb) hhash] at hhere
  exact hhere hb

/-- A block that is taken out of the pool is missing again. -/
theorem erase (h : pool.Keeps rest missing) (hb : b ∈ rest) : (pool.erase b.hash).Keeps rest (b :: missing) where
  consistent := h.consistent.erase b.hash
  size_le := by
    rw [capacity_erase]
    exact Nat.le_trans (size_erase_le _ _) h.size_le
  room := by
    rw [capacity_erase]
    exact h.room
  nodup := h.nodup
  subset := List.cons_subset.2 ⟨hb, h.subset⟩
  pooled {hash o} ho := by
    rw [get?_erase] at ho
    split at ho
    · cases ho
    rename_i hne
    obtain ⟨b', hb', hhere, rfl, hitem⟩ := h.pooled ho
    have hother : b' ≠ b := by
      rintro rfl
      exact hne rfl
    exact ⟨b', hb', List.not_mem_cons_of_ne_of_not_mem hother hhere, rfl, hitem⟩
  here {b'} hb' hhere := by
    have hother := List.ne_of_not_mem_cons hhere
    rw [contains_erase_of_ne _ fun heq => hother (h.eq_of_hash hb' hb heq)]
    exact h.here hb' (List.not_mem_of_not_mem_cons hhere)

/-- A block that is missing may be left out. -/
theorem tail (h : pool.Keeps (b :: rest) (b :: missing)) (hfresh : b ∉ missing) : pool.Keeps rest missing where
  consistent := h.consistent
  size_le := h.size_le
  room := Nat.le_trans (Nat.le_succ _) h.room
  nodup := (List.nodup_cons.1 (List.map_cons ▸ h.nodup)).2
  subset b' hb' := by
    refine (List.mem_cons.1 (h.subset (List.mem_cons_of_mem b hb'))).resolve_left ?_
    rintro rfl
    exact hfresh hb'
  pooled ho := by
    obtain ⟨b', hb', hhere, hhash, hitem⟩ := h.pooled ho
    exact ⟨b', (List.mem_cons.1 hb').resolve_left (List.ne_of_not_mem_cons hhere), List.not_mem_of_not_mem_cons hhere,
      hhash, hitem⟩
  here {b'} hb' hhere := by
    refine h.here (List.mem_cons_of_mem b hb') (List.not_mem_cons_of_ne_of_not_mem ?_ hhere)
    rintro rfl
    exact (List.nodup_cons.1 (List.map_cons ▸ h.nodup)).1 (List.mem_map_of_mem hb')

/-- While two blocks are missing there is room for one of them. -/
theorem size_lt (h : pool.Keeps rest (b :: missing)) (hfresh : b ∉ missing) (hlow : low ∈ missing) :
    pool.size < pool.capacity := by
  have hb := h.subset List.mem_cons_self
  have hlow' := h.subset (List.mem_cons_of_mem b hlow)
  have hne : low.hash ≠ b.hash := fun heq => by
    rw [h.eq_of_hash hlow' hb heq] at hlow
    exact hfresh hlow
  have hnodup : (low.hash :: b.hash :: pool.queue).Nodup := by
    refine List.nodup_cons.2 ⟨?_, List.nodup_cons.2 ⟨h.not_mem_queue List.mem_cons_self, h.consistent.nodup_queue⟩⟩
    exact List.not_mem_cons_of_ne_of_not_mem hne (h.not_mem_queue (List.mem_cons_of_mem b hlow))
  have hsubset : low.hash :: b.hash :: pool.queue ⊆ rest.map FilteredBlock.hash := by
    refine List.cons_subset.2 ⟨List.mem_map_of_mem hlow', List.cons_subset.2 ⟨List.mem_map_of_mem hb, ?_⟩⟩
    intro hash hmem
    obtain ⟨b', hb', -, rfl⟩ := h.mem_queue hmem
    exact List.mem_map_of_mem hb'
  have hle := (List.subperm_of_subset hnodup hsubset).length_le
  have hroom := h.room
  rw [List.length_cons, List.length_cons, List.length_map, ← h.consistent.size_eq] at hle
  omega

/-- A block that goes into the pool is missing no longer. -/
theorem insert (h : pool.Keeps rest (b :: missing)) (hfresh : b ∉ missing) (hsize : pool.size < pool.capacity)
    (peer : PeerId) (now : Nat) : (pool.insert b.hash (.block b) peer now).Keeps rest missing := by
  have hget := get?_insert_of_room hsize b.hash (.block b) peer now
  constructor
  case consistent => exact h.consistent.insert _ _ _ _
  case size_le =>
    rw [capacity_insert]
    exact Nat.le_trans (size_insert_le _ _ _ _ _) hsize
  case room =>
    rw [capacity_insert]
    exact h.room
  case nodup => exact h.nodup
  case subset => exact (List.cons_subset.1 h.subset).2
  case pooled =>
    intro hash o ho
    rw [hget] at ho
    split at ho
    · rename_i hhash
      cases ho
      exact ⟨b, h.subset List.mem_cons_self, hfresh, hhash.symm, rfl⟩
    · obtain ⟨b', hb', hhere, hhash, hitem⟩ := h.pooled ho
      exact ⟨b', hb', List.not_mem_of_not_mem_cons hhere, hhash, hitem⟩
  case here =>
    intro b' hb' hhere
    refine Table.contains_eq_true.2 ?_
    change ∃ o, (pool.insert b.hash (.block b) peer now).get? b'.hash = some o
    rw [hget]
    split
    · exact ⟨_, rfl⟩
    · rename_i hother
      refine Table.contains_eq_true.1 (h.here hb' (List.not_mem_cons_of_ne_of_not_mem ?_ hhere))
      rintro rfl
      exact hother rfl

end Orphans.Keeps

namespace Engine

/-- The blocks that are not committed yet lie on the tip, one on the other, and wait in the pool unless they are
missing. -/
structure Stacking (rest missing : List FilteredBlock) (e : Engine) : Prop where
  fits : e.chain.Fits (rest.map bare)
  valid : ∀ b ∈ rest, b.header.meetsTarget = true ∧ b.provedTxids = .ok []
  isOpen : e.chain.isClosed = false
  disk : e.store.outages = 0
  round : e.round = none
  keeps : e.orphans.Keeps rest missing

namespace Stacking

variable {rest missing : List FilteredBlock} {b : FilteredBlock} {e : Engine} {env : Outlook}

section

variable (h : Stacking rest missing e)
include h

theorem unknown (hb : b ∈ rest) : e.chain.knows b.hash = false := h.fits.unknown (bare b) (List.mem_map_of_mem hb)

theorem previous_of_head (hb : rest.head? = some b) : b.previous = e.chain.tip.hash := by
  have hparent := h.fits.parent (bare b) (by rw [List.head?_map, hb]; rfl)
  exact Option.some.inj (hparent.symm.trans h.fits.wellFormed.tip_at.1)

/-- **Only the lowest block lies on the tip.** The others are on blocks that the chain does not know. -/
theorem head_of_previous (hb : b ∈ rest) (hprevious : b.previous = e.chain.tip.hash) : rest.head? = some b := by
  obtain ⟨below, above, hsplit⟩ := List.append_of_mem hb
  have hlinked := h.fits.linked
  obtain rfl | ⟨lower, parent, rfl⟩ := below.eq_nil_or_concat
  · rw [hsplit]
    rfl
  · rw [hsplit, List.concat_eq_append, List.append_assoc, List.map_append] at hlinked
    have hparent : b.previous = parent.hash := (List.isChain_append.1 hlinked).2.1.rel
    have hunknown := h.unknown (b := parent) (by rw [hsplit]; simp)
    exact absurd (hparent.symm.trans hprevious) (h.fits.wellFormed.ne_tip hunknown)

theorem mem_usableOrphans {hash : Digest} :
    hash ∈ e.usableOrphans ↔ ∃ b, rest.head? = some b ∧ b ∉ missing ∧ b.hash = hash := by
  rw [Engine.mem_usableOrphans h.keeps.consistent]
  constructor
  · rintro ⟨o, ho, husable⟩
    obtain ⟨b, hb, hhere, hhash, hitem⟩ := h.keeps.pooled ho
    rw [isUsable, h.round, hitem] at husable
    exact ⟨b, h.head_of_previous hb (of_decide_eq_true husable), hhere, hhash⟩
  · rintro ⟨b, hhead, hhere, rfl⟩
    have hb := List.mem_of_head? hhead
    obtain ⟨o, ho⟩ := Table.contains_eq_true.1 (h.keeps.here hb hhere)
    obtain ⟨b', hb', -, hhash, hitem⟩ := h.keeps.pooled ho
    obtain rfl := h.keeps.eq_of_hash hb' hb hhash
    refine ⟨o, ho, ?_⟩
    rw [isUsable, h.round, hitem]
    exact decide_eq_true (h.previous_of_head hhead)

theorem settle_eq (env : Outlook) : e.settle env = e := by
  have hheld : e.heldCount = 0 := by rw [heldCount, h.round]; rfl
  rw [settle_of_idle env hheld]
  refine forgetKnown_eq_self h.keeps.consistent fun hash o ho _ => ?_
  obtain ⟨b, hb, -, rfl, -⟩ := h.keeps.pooled ho
  exact h.unknown hb

theorem withPool {pool : Orphans} {missing' : List FilteredBlock} (hkeeps : pool.Keeps rest missing') :
    Stacking rest missing' { e with orphans := pool } :=
  ⟨h.fits, h.valid, h.isOpen, h.disk, h.round, hkeeps⟩

end

/-! ## One block -/

/-- **The block that the others wait for** is committed. -/
theorem connect (h : Stacking (b :: rest) (b :: missing) e) (hfresh : b ∉ missing) (hleads : Leads env e.chain)
    (peer : PeerId) :
    (e.processBlock env peer b).2 = .ok () ∧ Connected [b] e (e.processBlock env peer b).1 ∧
      Stacking rest missing (e.processBlock env peer b).1 ∧ (e.processBlock env peer b).1.orphans = e.orphans := by
  have hunknown := h.unknown List.mem_cons_self
  have hparent := h.previous_of_head rfl
  have hne : b.previous ≠ b.hash := fun heq =>
    h.fits.wellFormed.ne_tip hunknown (heq.symm.trans hparent)
  have hfits : e.chain.Fits [bare b] :=
    ⟨h.fits.wellFormed, List.isChain_singleton _, h.fits.parent, List.nodup_singleton _,
      fun b' hb' => h.fits.unknown b' (List.mem_singleton.1 hb' ▸ List.mem_cons_self)⟩
  obtain ⟨hwork, hproof⟩ := h.valid b List.mem_cons_self
  rw [processBlock_of_tip env h.fits.wellFormed h.round hunknown hwork hproof hparent peer]
  obtain ⟨hok, hconnected, hround, horphans⟩ := finishIfComplete_alone env
    (e := { e with round := some (.alone b peer env.now) }) rfl hfits hne h.isOpen h.disk hleads
  have hconnected : Connected [b] e _ := hconnected.of_same rfl rfl
  generalize (Engine.finishIfComplete env _).1 = e' at hconnected hround horphans ⊢
  refine ⟨hok, hconnected, ?_, horphans⟩
  constructor
  case fits =>
    rw [hconnected.chain]
    exact h.fits.connect
  case valid => exact fun b' hb' => h.valid b' (List.mem_cons_of_mem b hb')
  case isOpen =>
    rw [hconnected.chain]
    exact h.isOpen
  case disk => rw [hconnected.outages, h.disk]
  case round => exact hround
  case keeps =>
    rw [horphans]
    exact h.keeps.tail hfresh

/-- **Any other block** waits in the pool. -/
theorem addOrphan (h : Stacking rest (b :: missing) e) (hfresh : b ∉ missing) {low : FilteredBlock}
    (hhead : rest.head? = some low) (hlow : low ∈ missing) (env : Outlook) (peer : PeerId) :
    e.processBlock env peer b = (e.addOrphan env b.hash (.block b) peer, .ok ()) ∧
      Stacking rest missing (e.addOrphan env b.hash (.block b) peer) := by
  have hb := h.keeps.subset List.mem_cons_self
  obtain ⟨hwork, hproof⟩ := h.valid b hb
  have hparent : b.previous ≠ e.chain.tip.hash := fun heq => by
    cases hhead.symm.trans (h.head_of_previous hb heq)
    exact hfresh hlow
  have htip := (h.fits.wellFormed.ne_tip (h.unknown hb)).symm
  refine ⟨?_, h.withPool (h.keeps.insert hfresh (h.keeps.size_lt hfresh hlow) peer env.now)⟩
  simp only [processBlock, h.unknown hb, checkWork_eq_ok_iff.2 hwork, hproof, syncPeer, h.round, Option.bind_none,
    placeAtTip, htip, hparent, ne_eq, not_false_eq_true, if_true, if_false, Bool.false_eq_true]

/-! ## What was waiting -/

/-- The lowest block is used once it is here. -/
theorem useOrphan (h : Stacking (b :: rest) missing e) (hhere : b ∉ missing) (hleads : Leads env e.chain) :
    Connected [b] e (e.useOrphan env b.hash) ∧ Stacking rest missing (e.useOrphan env b.hash) ∧
      (e.useOrphan env b.hash).orphans.size < e.orphans.size := by
  have hcontains := h.keeps.here List.mem_cons_self hhere
  obtain ⟨o, ho⟩ := Table.contains_eq_true.1 hcontains
  obtain ⟨b', hb', -, hhash, hitem⟩ := h.keeps.pooled ho
  obtain rfl := h.keeps.eq_of_hash hb' List.mem_cons_self hhash
  obtain ⟨-, hconnected, hstacking, horphans⟩ :=
    (h.withPool (h.keeps.erase List.mem_cons_self)).connect hhere hleads o.peer
  rw [useOrphan_of_get? ho, hitem]
  refine ⟨hconnected.of_same rfl rfl, hstacking, ?_⟩
  have herase := Orphans.size_erase hcontains
  rw [process, horphans, ← herase]
  exact Nat.lt_succ_self _

/-- **The passes commit one block after the other** until the lowest one is missing. -/
theorem resolvePasses (missing : List FilteredBlock) (env : Outlook) : ∀ (passes : Nat) {rest : List FilteredBlock}
    {e : Engine}, Stacking rest missing e → Leads env e.chain → e.orphans.size < passes →
      ∃ done rest', rest = done ++ rest' ∧ Connected done e (e.resolvePasses env passes) ∧
        Stacking rest' missing (e.resolvePasses env passes) ∧ ∀ low ∈ rest'.head?, low ∈ missing
  | 0, _, _, _, _, hsize => absurd hsize (Nat.not_lt_zero _)
  | passes + 1, rest, e, h, hleads, hsize => by
    simp only [Engine.resolvePasses, h.settle_eq env]
    by_cases hlow : ∀ low ∈ rest.head?, low ∈ missing
    · have hnone : e.usableOrphans = [] := by
        rw [List.eq_nil_iff_forall_not_mem]
        intro hash hmem
        obtain ⟨b, hhead, hhere, -⟩ := h.mem_usableOrphans.1 hmem
        exact hhere (hlow b hhead)
      rw [hnone]
      exact ⟨[], rest, rfl, .same rfl rfl, h, hlow⟩
    · simp only [not_forall] at hlow
      obtain ⟨b, hhead, hhere⟩ := hlow
      obtain ⟨rest, rfl⟩ := List.head?_eq_some_iff.1 hhead
      have hone : e.usableOrphans = [b.hash] := by
        refine List.perm_singleton.1 ((List.perm_ext_iff_of_nodup (nodup_usableOrphans h.keeps.consistent)
          (List.nodup_singleton _)).2 fun hash => ?_)
        rw [h.mem_usableOrphans, List.mem_singleton]
        constructor
        · rintro ⟨b', hb', -, rfl⟩
          cases hb'
          rfl
        · rintro rfl
          exact ⟨b, rfl, hhere, rfl⟩
      obtain ⟨hconnected, hnext, hless⟩ := h.useOrphan hhere hleads
      obtain ⟨done, rest', rfl, hrest, hstacking, hlow⟩ :=
        resolvePasses missing env passes hnext (hconnected.leads hleads) (by omega)
      rw [hone]
      exact ⟨b :: done, rest', rfl, hconnected.trans hrest, hstacking, hlow⟩

/-! ## Deliveries -/

/-- **A delivery is taken**, and with it all that waited for it. -/
theorem receive (h : Stacking rest (b :: missing) e) (hfresh : b ∉ missing)
    (hlow : ∀ low ∈ rest.head?, low ∈ b :: missing) (hleads : Leads env e.chain) (peer : PeerId) :
    (e.receive env peer (.block b)).2 = .ok () ∧
      ∃ done rest', rest = done ++ rest' ∧ Connected done e (e.receive env peer (.block b)).1 ∧
        Stacking rest' missing (e.receive env peer (.block b)).1 ∧ ∀ low ∈ rest'.head?, low ∈ missing := by
  obtain ⟨low, hhead⟩ : ∃ low, rest.head? = some low :=
    Option.ne_none_iff_exists'.1 fun hnil => by
      rw [List.head?_eq_none_iff.1 hnil] at h
      exact absurd (h.keeps.subset List.mem_cons_self) List.not_mem_nil
  rw [receive_eq, process]
  rcases List.mem_cons.1 (hlow low hhead) with rfl | hmissing
  · obtain ⟨rest, rfl⟩ := List.head?_eq_some_iff.1 hhead
    obtain ⟨hok, hconnected, hnext, -⟩ := h.connect hfresh hleads peer
    obtain ⟨done, rest', rfl, hrest, hstacking, hlow'⟩ :=
      hnext.resolvePasses missing env _ (hconnected.leads hleads) (Nat.lt_succ_of_le hnext.keeps.size_le)
    exact ⟨hok, low :: done, rest', rfl, hconnected.trans hrest, hstacking, hlow'⟩
  · obtain ⟨heq, hnext⟩ := h.addOrphan hfresh hhead hmissing env peer
    rw [heq]
    obtain ⟨done, rest', rfl, hrest, hstacking, hlow'⟩ :=
      hnext.resolvePasses missing env _ hleads (Nat.lt_succ_of_le hnext.keeps.size_le)
    exact ⟨rfl, done, rest', rfl, hrest.of_same rfl rfl, hstacking, hlow'⟩

end Stacking

end Engine

/-- A block that some peer delivers, with the outlook at that time. -/
structure Delivery where
  env : Outlook
  peer : PeerId
  block : FilteredBlock

namespace Delivery

def call (d : Delivery) : Call := .deliver d.peer (.block d.block)

def turn (d : Delivery) : Turn := .call d.env d.call

end Delivery

namespace Engine

/-- **The deliveries one after the other**, until nothing is missing. -/
theorem Stacking.run : ∀ (deliveries : List Delivery) {rest : List FilteredBlock} {e : Engine},
    Stacking rest (deliveries.map Delivery.block) e → (deliveries.map Delivery.block).Nodup →
      (∀ low ∈ rest.head?, low ∈ deliveries.map Delivery.block) → (∀ d ∈ deliveries, Leads d.env e.chain) →
        (∀ pre d post, deliveries = pre ++ d :: post →
          ((e.run (pre.map Delivery.turn)).call d.env d.call).2 = .ok ()) ∧
        Connected rest e (e.run (deliveries.map Delivery.turn)) ∧
        Stacking [] [] (e.run (deliveries.map Delivery.turn))
  | [], rest, _, h, _, hlow, _ => by
    cases rest with
    | nil => exact ⟨fun pre d post hsplit => by simp at hsplit, .same rfl rfl, h⟩
    | cons low rest => exact absurd (hlow low rfl) List.not_mem_nil
  | d :: ds, rest, e, h, hnodup, hlow, hleads => by
    obtain ⟨hfresh, hnodup⟩ := List.nodup_cons.1 (List.map_cons ▸ hnodup)
    obtain ⟨hok, done, rest', rfl, hconnected, hnext, hlow'⟩ :=
      h.receive hfresh hlow (hleads d List.mem_cons_self) d.peer
    obtain ⟨hanswers, hrest, hstacking⟩ := run ds hnext hnodup hlow' fun d' hd' =>
      hconnected.leads (hleads d' (List.mem_cons_of_mem d hd'))
    refine ⟨fun pre d' post hsplit => ?_, hconnected.trans hrest, hstacking⟩
    cases pre with
    | nil =>
      cases hsplit
      exact hok
    | cons x pre =>
      cases hsplit
      exact hanswers pre d' post rfl

/-- There is no round, the pool is empty with room for all of the blocks but one, and the chain takes the blocks, which
come without transactions of ours, one on the other on top of its tip. -/
structure ReadyToStack (e : Engine) (blocks : List FilteredBlock) : Prop where
  fits : e.chain.Fits (blocks.map bare)
  valid : ∀ b ∈ blocks, b.header.meetsTarget = true ∧ b.provedTxids = .ok []
  isOpen : e.chain.isClosed = false
  disk : e.store.outages = 0
  round : e.round = none
  pool : e.orphans.size = 0 ∧ e.orphans.queue = []
  room : blocks.length - 1 ≤ e.orphans.capacity

theorem ReadyToStack.stacking {e : Engine} {blocks missing : List FilteredBlock} (h : ReadyToStack e blocks)
    (hmissing : missing.Perm blocks) : Stacking blocks missing e where
  fits := h.fits
  valid := h.valid
  isOpen := h.isOpen
  disk := h.disk
  round := h.round
  keeps :=
    { consistent := .of_empty h.pool.1 h.pool.2
      size_le := by
        rw [h.pool.1]
        exact Nat.zero_le _
      room := by
        have hroom := h.room
        omega
      nodup := by
        have hnodup := h.fits.nodup
        rw [List.map_map] at hnodup
        exact hnodup
      subset := hmissing.subset
      pooled := fun ho => by
        rw [Orphans.get?, Table.get?_of_size_eq_zero h.pool.1] at ho
        cases ho
      here := fun hb hhere => absurd (hmissing.mem_iff.2 hb) hhere }

/-- **Blocks that come in any order are stacked in theirs.** Each of them is delivered once, by whatever peer, while no
connected peer is ahead of us. Then every delivery is taken, the chain ends with all of the blocks on top of what it
was, each committed by itself, in order and with nothing rolled back, and no orphan is left. -/
theorem stack_any_order {e : Engine} {blocks : List FilteredBlock} (hready : ReadyToStack e blocks)
    {deliveries : List Delivery} (hdeliveries : (deliveries.map Delivery.block).Perm blocks)
    (hleads : ∀ d ∈ deliveries, Leads d.env e.chain) :
    (∀ pre d post, deliveries = pre ++ d :: post →
      ((e.run (pre.map Delivery.turn)).call d.env d.call).2 = .ok ()) ∧
    let e' := e.run (deliveries.map Delivery.turn)
    e'.chain.main = e.chain.main ++ blocks.map FilteredBlock.hash ∧ Connected blocks e e' ∧ e'.orphans.size = 0 ∧
      e'.round = none := by
  have hstart := hready.stacking hdeliveries
  have hnodup := hdeliveries.nodup_iff.2 hstart.keeps.nodup.of_map
  obtain ⟨hanswers, hconnected, hstacking⟩ := hstart.run deliveries hnodup
    (fun low hlow => hdeliveries.mem_iff.2 (List.mem_of_head? hlow)) hleads
  refine ⟨hanswers, hconnected.main, hconnected, ?_, hstacking.round⟩
  rw [hstacking.keeps.consistent.size_eq, List.length_eq_zero_iff, List.eq_nil_iff_forall_not_mem]
  intro hash hmem
  obtain ⟨b, hb, -⟩ := hstacking.keeps.mem_queue hmem
  cases hb

end Engine

/-! ## From the top -/

namespace Sample

/-- Three blocks on top of the genesis block. -/
def stack : List FilteredBlock :=
  let low := child genesisHash 4
  let middle := child low.hash 0
  [low, middle, child middle.hash 0]

/-- The peer is connected, but no longer ahead of us. -/
def level : Outlook := ⟨0, [⟨peer, 0, .established, 0⟩]⟩

/-- The blocks come from two peers in turn, the highest one first. -/
def topDown : List Delivery :=
  (stack.reverse.zip [peer, ⟨2⟩, peer]).map fun b => ⟨level, b.2, b.1⟩

theorem checks_stack :
    (∀ b ∈ stack, engine.chain.knows b.hash = false ∧ b.header.meetsTarget = true ∧ b.provedTxids = .ok []) ∧
      (stack.map FilteredBlock.hash).Nodup := by
  decide +kernel

theorem readyToStack_engine : Engine.ReadyToStack engine stack where
  fits :=
    { wellFormed := .ofGenesis genesis
      linked := .cons_cons rfl (.cons_cons rfl (.singleton _))
      parent := fun b hb => by
        cases hb
        exact congrArg some hash_genesis
      nodup := checks_stack.2
      unknown := by
        intro b hb
        obtain ⟨a, ha, rfl⟩ := List.mem_map.1 hb
        exact (checks_stack.1 a ha).1 }
  valid b hb := (checks_stack.1 b hb).2
  isOpen := rfl
  disk := rfl
  round := rfl
  pool := ⟨rfl, rfl⟩
  room := by decide

end Sample

namespace Engine

open Sample

theorem stack_topDown :
    ReadyToStack engine stack ∧
      (engine.run (topDown.map Delivery.turn)).chain.main = genesisHash :: stack.map FilteredBlock.hash ∧
      Connected stack engine (engine.run (topDown.map Delivery.turn)) ∧
      (engine.run (topDown.map Delivery.turn)).orphans.size = 0 := by
  have hdeliveries : (topDown.map Delivery.block).Perm stack := List.reverse_perm stack
  have hleads : ∀ d ∈ topDown, Leads d.env engine.chain := by
    intro d hd
    obtain ⟨b, -, rfl⟩ := List.mem_map.1 hd
    intro peer hpeer _
    cases List.mem_singleton.1 hpeer
    exact Nat.zero_le _
  obtain ⟨-, hmain, hconnected, hpool, -⟩ := stack_any_order readyToStack_engine hdeliveries hleads
  refine ⟨readyToStack_engine, ?_, hconnected, hpool⟩
  rw [hmain, ← hash_genesis]
  rfl

end Engine
end LightClient
