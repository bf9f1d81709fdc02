import Mathlib.Data.List.DropRight
import LightClient.Proofs.Chain.WellFormed
/-!
# What the batches of a chain leave standing

A batch is put on a block of the main chain, and the blocks above this one are taken back. So the batches that a chain
took decide which of their blocks still stand, each with the transactions that it was committed with (`standing`).

They decide as well which of their transactions are confirmed. With a block go all of its transactions, whether or not
another block that stays carries them, too. So a transaction that was brought is confirmed unless it is `Lost`: a block
that carried it was taken back, and nothing brought it since (`Built.confirmed`). What is lost may still be carried by a
block of the main chain.
-/
namespace LightClient

/-- The names of the transactions that a block was committed with. -/
def ConfirmedBlock.txids (b : ConfirmedBlock) : List Digest := b.transactions.map Transaction.txid

namespace Chain

def txidsOf (blocks : List ConfirmedBlock) : List Digest := blocks.flatMap ConfirmedBlock.txids

/-! ## Batches -/

def isParentOf (batch : List ConfirmedBlock) (b : ConfirmedBlock) : Bool :=
  batch.head?.any fun first => b.block.hash = first.block.previous

/-- What stays of some blocks below a batch: those up to its parent. It is none of them if its parent is not among
them. -/
def kept (batch blocks : List ConfirmedBlock) : List ConfirmedBlock := blocks.rdropWhile fun b => !isParentOf batch b

/-- What makes room for a batch. -/
def undone (batch blocks : List ConfirmedBlock) : List ConfirmedBlock := blocks.rtakeWhile fun b => !isParentOf batch b

/-- The blocks that are left of some batches, each of which was put on those before. -/
def standing (batches : List (List ConfirmedBlock)) : List ConfirmedBlock :=
  batches.foldl (fun blocks batch => kept batch blocks ++ batch) []

/-- At some batch a block with the transaction was taken back, and neither this batch nor a later one brought it
again. -/
def Lost (batches : List (List ConfirmedBlock)) (txid : Digest) : Prop :=
  ∃ earlier batch later, batches = earlier ++ batch :: later ∧ txid ∈ txidsOf (undone batch (standing earlier)) ∧
    ∀ b ∈ batch :: later, txid ∉ txidsOf b

theorem mem_txidsOf {blocks : List ConfirmedBlock} {txid : Digest} :
    txid ∈ txidsOf blocks ↔ ∃ b ∈ blocks, txid ∈ b.txids := List.mem_flatMap

theorem txidsOf_append (blocks more : List ConfirmedBlock) :
    txidsOf (blocks ++ more) = txidsOf blocks ++ txidsOf more := List.flatMap_append

theorem kept_append_undone (batch blocks : List ConfirmedBlock) : kept batch blocks ++ undone batch blocks = blocks :=
  List.rdropWhile_append_rtakeWhile

theorem kept_undone_of_parent {first b : ConfirmedBlock} (rest below : List ConfirmedBlock)
    {above : List ConfirmedBlock} (hb : b.block.hash = first.block.previous)
    (habove : ∀ x ∈ above, x.block.hash ≠ first.block.previous) :
    kept (first :: rest) (below ++ b :: above) = below ++ [b] ∧
      undone (first :: rest) (below ++ b :: above) = above := by
  have hparent : isParentOf (first :: rest) b = true := by simp [isParentOf, hb]
  have hother (x : ConfirmedBlock) (hx : x ∈ above.reverse) : (!isParentOf (first :: rest) x) = true := by
    simp [isParentOf, habove x (List.mem_reverse.1 hx)]
  have hreverse : (below ++ b :: above).reverse = above.reverse ++ b :: below.reverse := by simp
  constructor
  · rw [kept, List.rdropWhile, hreverse, List.dropWhile_append_of_pos hother,
      List.dropWhile_cons_of_neg (by simp [hparent])]
    simp
  · rw [undone, List.rtakeWhile, hreverse, List.takeWhile_append_of_pos hother,
      List.takeWhile_cons_of_neg (by simp [hparent])]
    simp

theorem kept_undone_of_stranger {first : ConfirmedBlock} (rest : List ConfirmedBlock) {blocks : List ConfirmedBlock}
    (hblocks : ∀ x ∈ blocks, x.block.hash ≠ first.block.previous) :
    kept (first :: rest) blocks = [] ∧ undone (first :: rest) blocks = blocks := by
  have hother (x : ConfirmedBlock) (hx : x ∈ blocks) : (!isParentOf (first :: rest) x) = true := by
    simp [isParentOf, hblocks x hx]
  exact ⟨List.rdropWhile_eq_nil_iff.2 hother, List.rtakeWhile_eq_self_iff.2 hother⟩

theorem standing_concat (batches : List (List ConfirmedBlock)) (batch : List ConfirmedBlock) :
    standing (batches ++ [batch]) = kept batch (standing batches) ++ batch := List.foldl_concat ..

theorem mem_flatten_of_mem_standing {batches : List (List ConfirmedBlock)} {b : ConfirmedBlock}
    (h : b ∈ standing batches) : b ∈ batches.flatten := by
  induction batches using List.reverseRecOn with
  | nil => cases h
  | append_singleton batches batch ih =>
    rw [standing_concat, List.mem_append] at h
    rw [List.flatten_concat, List.mem_append]
    exact h.imp_left fun hkept => ih ((List.rdropWhile_prefix _ _).subset hkept)

/-! ## What is lost -/

section Lost

variable {batches : List (List ConfirmedBlock)} {batch : List ConfirmedBlock} {txid : Digest}

/-- What a batch brings is not lost. -/
theorem not_lost_concat (h : txid ∈ txidsOf batch) : ¬ Lost (batches ++ [batch]) txid := by
  rintro ⟨earlier, batch', later, heq, -, hnone⟩
  have hlast : (batch' :: later).getLast? = some batch := by
    have := congrArg List.getLast? heq
    rwa [List.getLast?_concat, List.getLast?_append_cons, eq_comm] at this
  exact hnone batch (List.mem_of_getLast? hlast) h

/-- A batch that does not bring a transaction can lose it, and cannot find it again. -/
theorem lost_concat_iff (h : txid ∉ txidsOf batch) :
    Lost (batches ++ [batch]) txid ↔ Lost batches txid ∨ txid ∈ txidsOf (undone batch (standing batches)) := by
  constructor
  -- what took the block back is the last batch itself or one of those before
  · rintro ⟨earlier, batch', later, heq, hback, hnone⟩
    obtain rfl | ⟨later, last, rfl⟩ := List.eq_nil_or_concat later
    · obtain ⟨rfl, rfl⟩ := List.append_inj' heq rfl |>.imp_right List.singleton_inj.1
      exact Or.inr hback
    · rw [List.concat_eq_append, ← List.cons_append, ← List.append_assoc] at heq
      obtain ⟨rfl, -⟩ := List.append_inj' heq rfl
      refine Or.inl ⟨earlier, batch', later, rfl, hback, fun b hb => hnone b ?_⟩
      rw [List.concat_eq_append, ← List.cons_append]
      exact List.mem_append_left _ hb
  · rintro (⟨earlier, batch', later, rfl, hback, hnone⟩ | hback)
    · refine ⟨earlier, batch', later ++ [batch], by simp, hback, fun b hb => ?_⟩
      rw [← List.cons_append, List.mem_append, List.mem_singleton] at hb
      obtain hb | rfl := hb
      · exact hnone b hb
      · exact h
    · refine ⟨batches, batch, [], rfl, hback, fun b hb => ?_⟩
      rw [List.mem_singleton.1 hb]
      exact h

/-- **What was brought and is not lost still stands.** -/
theorem mem_standing_of_not_lost (hbrought : txid ∈ txidsOf batches.flatten) (h : ¬ Lost batches txid) :
    txid ∈ txidsOf (standing batches) := by
  induction batches using List.reverseRecOn with
  | nil => cases hbrought
  | append_singleton batches batch ih =>
    rw [standing_concat, txidsOf_append, List.mem_append]
    by_cases hbatch : txid ∈ txidsOf batch
    · exact Or.inr hbatch
    rw [lost_concat_iff hbatch, not_or] at h
    rw [List.flatten_concat, txidsOf_append, List.mem_append] at hbrought
    have hstood := ih (hbrought.resolve_right hbatch) h.1
    rw [← kept_append_undone batch (standing batches), txidsOf_append, List.mem_append] at hstood
    exact Or.inl (hstood.resolve_right h.2)

end Lost

/-! ## What a batch does to the pools -/

/-- **What is confirmed by a batch**: what it brings, and what was confirmed and came with none of the blocks that were
taken back. -/
theorem contains_confirmed_reorganise (c : Chain) (height : Nat) (batch : List ConfirmedBlock) (txid : Digest) :
    (c.reorganise height batch).1.confirmed.contains txid = true ↔
      txid ∈ txidsOf batch ∨
        c.confirmed.contains txid = true ∧ ∀ hash ∈ c.main.drop height, txid ∉ c.recorded hash := by
  have hbrought : ((batch.flatMap ConfirmedBlock.transactions).reverse.find? fun tx => tx.txid = txid).isSome = true ↔
      txid ∈ txidsOf batch := by
    simp only [List.find?_isSome, List.mem_reverse, List.mem_flatMap, decide_eq_true_eq, mem_txidsOf,
      ConfirmedBlock.txids, List.mem_map]
    constructor
    · rintro ⟨tx, ⟨b, hb, htx⟩, heq⟩
      exact ⟨b, hb, tx, htx, heq⟩
    · rintro ⟨b, hb, tx, htx, heq⟩
      exact ⟨tx, ⟨b, hb, htx⟩, heq⟩
  rw [Table.contains, reorganise_fst, confirmed_connectAll, Option.isSome_or, Bool.or_eq_true, hbrought,
    confirmed_rollBack, Table.contains]
  refine or_congr_right ?_
  split
  · rename_i htaken
    obtain ⟨hash, hmem, hrecorded⟩ := htaken
    exact ⟨fun h => (Bool.false_ne_true h).elim, fun h => absurd hrecorded (h.2 hash hmem)⟩
  · rename_i hnot
    simp only [not_exists, not_and] at hnot
    exact ⟨fun h => ⟨h, hnot⟩, And.left⟩

theorem unconfirmed_forgetAll : ∀ (hashes : List Digest) (c : Chain),
    (forgetAll c hashes).unconfirmed = c.unconfirmed
  | [], _ => rfl
  | hash :: hashes, c => unconfirmed_forgetAll hashes (c.forget hash).1

theorem contains_foldl_erase : ∀ (txs : List Transaction) (t : Table Digest Transaction) (txid : Digest),
    (txs.foldl (fun t tx => t.erase tx.txid) t).contains txid = true ↔
      t.contains txid = true ∧ txid ∉ txs.map Transaction.txid
  | [], t, txid => by simp
  | tx :: txs, t, txid => by
    rw [List.foldl_cons, contains_foldl_erase txs, Table.contains_erase, Bool.and_eq_true, decide_eq_true_eq,
      List.map_cons, List.mem_cons, not_or]
    tauto

theorem contains_unconfirmed_connectAll : ∀ (batch : List ConfirmedBlock) (c : Chain) (txid : Digest),
    (batch.foldl (fun c b => (c.connect b).1) c).unconfirmed.contains txid = true ↔
      c.unconfirmed.contains txid = true ∧ txid ∉ txidsOf batch
  | [], c, txid => by simp [txidsOf]
  | b :: batch, c, txid => by
    have hb : (c.connect b).1.unconfirmed.contains txid = true ↔ c.unconfirmed.contains txid = true ∧ txid ∉ b.txids :=
      contains_foldl_erase b.transactions c.unconfirmed txid
    rw [List.foldl_cons, contains_unconfirmed_connectAll batch, hb, and_assoc, ← not_or, ← List.mem_append]
    rfl

/-- **Unconfirmed stays** what a batch does not bring. Nothing that is taken back comes here. -/
theorem contains_unconfirmed_reorganise (c : Chain) (height : Nat) (batch : List ConfirmedBlock) (txid : Digest) :
    (c.reorganise height batch).1.unconfirmed.contains txid = true ↔
      c.unconfirmed.contains txid = true ∧ txid ∉ txidsOf batch := by
  rw [reorganise_fst, contains_unconfirmed_connectAll, rollBack_fst, unconfirmed_forgetAll]

theorem reorganise_of_commit {c c' : Chain} {batch : List ConfirmedBlock} {events : List ChainEvent}
    (h : c.commit batch = .ok (c', events)) : ∃ height, c' = (c.reorganise height batch).1 := by
  obtain ⟨-, _, _, -, -, -, below, _, -, -, hresult⟩ := commit_eq_ok_iff.1 h
  exact ⟨below.length + 1, by rw [hresult]⟩

/-! ## Chains and their batches -/

/-- Where a batch cuts a main chain that consists of a base and of some blocks: above the batch's parent. If it cuts the
base, then none of the blocks stay. -/
structure Cut (c : Chain) (base : List Digest) (batch blocks : List ConfirmedBlock) (height : Nat)
    (below gone : List Digest) : Prop where
  base_eq : base = below ++ gone
  below_ne_nil : below ≠ []
  take_eq : c.main.take height = below ++ (kept batch blocks).map fun b => b.block.hash
  drop_eq : c.main.drop height = gone ++ (undone batch blocks).map fun b => b.block.hash
  kept_or : gone = [] ∨ kept batch blocks = []

section Cut

variable {c : Chain} {base lower upper : List Digest} {first : ConfirmedBlock} {rest blocks : List ConfirmedBlock}

theorem take_drop_of_split {hash : Digest} (hsplit : c.main = lower ++ hash :: upper) :
    c.main.take (lower.length + 1) = lower ++ [hash] ∧ c.main.drop (lower.length + 1) = upper := by
  rw [hsplit, List.append_cons]
  exact ⟨List.take_left' (by simp), List.drop_left' (by simp)⟩

theorem WellFormed.not_mem_of_split (hc : c.WellFormed) {hash : Digest} (hsplit : c.main = lower ++ hash :: upper) :
    hash ∉ lower ∧ hash ∉ upper := by
  have hnodup := hc.nodup_main
  rw [hsplit, List.nodup_middle, List.nodup_cons, List.mem_append, not_or] at hnodup
  exact hnodup.1

/-- A block stands once in the main chain, so every way to split it there is the same one. -/
theorem WellFormed.split_unique (hc : c.WellFormed) {hash : Digest} (hsplit : c.main = lower ++ hash :: upper)
    {lower' upper' : List Digest} (hsplit' : c.main = lower' ++ hash :: upper') : lower = lower' ∧ upper = upper' := by
  obtain ⟨hlower, hupper⟩ := hc.not_mem_of_split hsplit
  obtain ⟨hlower', -, hupper'⟩ := (List.append_cons_inj_of_notMem hlower hupper).1 (hsplit.symm.trans hsplit')
  exact ⟨hlower', hupper'⟩

/-- The batch's parent is one of the blocks. -/
theorem Cut.of_parent (hc : c.WellFormed) {b : ConfirmedBlock} {under above : List ConfirmedBlock} (hbase : base ≠ [])
    (hparent : b.block.hash = first.block.previous) (hlower : lower = base ++ under.map fun b => b.block.hash)
    (hsplit : c.main = lower ++ first.block.previous :: above.map fun b => b.block.hash) :
    Cut c base (first :: rest) (under ++ b :: above) (lower.length + 1) base [] := by
  have habove (x : ConfirmedBlock) (hx : x ∈ above) : x.block.hash ≠ first.block.previous := fun heq =>
    (hc.not_mem_of_split hsplit).2 (heq ▸ List.mem_map_of_mem hx)
  obtain ⟨hkept, hundone⟩ := kept_undone_of_parent rest under hparent habove
  obtain ⟨htake, hdrop⟩ := take_drop_of_split hsplit
  refine ⟨(List.append_nil _).symm, hbase, ?_, ?_, Or.inl rfl⟩
  · rw [htake, hkept, hlower, List.map_append, List.map_singleton, hparent, List.append_assoc]
  · rw [hdrop, hundone, List.nil_append]

/-- The batch's parent is in the base. -/
theorem Cut.of_stranger {gone : List Digest} (hbase : base = lower ++ first.block.previous :: gone)
    (hblocks : ∀ x ∈ blocks, x.block.hash ≠ first.block.previous)
    (hsplit : c.main = lower ++ first.block.previous :: (gone ++ blocks.map fun b => b.block.hash)) :
    Cut c base (first :: rest) blocks (lower.length + 1) (lower ++ [first.block.previous]) gone := by
  obtain ⟨hkept, hundone⟩ := kept_undone_of_stranger rest hblocks
  obtain ⟨htake, hdrop⟩ := take_drop_of_split hsplit
  refine ⟨hbase.trans (List.append_cons ..), by simp, ?_, ?_, Or.inr hkept⟩
  · rw [htake, hkept, List.map_nil, List.append_nil]
  · rw [hdrop, hundone]

end Cut

theorem exists_cut {c c' : Chain} (hc : c.WellFormed) {base : List Digest} {batch blocks : List ConfirmedBlock}
    {events : List ChainEvent} (hbase : base ≠ []) (hmain : c.main = base ++ blocks.map fun b => b.block.hash)
    (hcommit : c.commit batch = .ok (c', events)) :
    ∃ height below gone, Cut c base batch blocks height below gone ∧ 0 < height ∧
      c.reorganise height batch = (c', events) := by
  obtain ⟨-, first, rest, rfl, -, -, lower, upper, hsplit, -, hresult⟩ := commit_eq_ok_iff.1 hcommit
  refine ⟨lower.length + 1, ?_⟩
  by_cases hin : first.block.previous ∈ blocks.map fun b => b.block.hash
  · obtain ⟨b, hb, hparent⟩ := List.mem_map.1 hin
    obtain ⟨under, above, rfl⟩ := List.append_of_mem hb
    have hsplit' : c.main = (base ++ under.map fun b => b.block.hash) ++
        first.block.previous :: above.map fun b => b.block.hash := by
      rw [hmain, ← hparent, List.map_append, List.map_cons, List.append_assoc]
    obtain ⟨hlower, rfl⟩ := hc.split_unique hsplit hsplit'
    exact ⟨base, [], .of_parent hc hbase hparent hlower hsplit, Nat.succ_pos _, hresult⟩
  · have hmem : first.block.previous ∈ base := by
      have hparent : first.block.previous ∈ c.main := hsplit ▸ List.mem_append_cons_self
      rw [hmain, List.mem_append] at hparent
      exact hparent.resolve_right hin
    obtain ⟨under, gone, rfl⟩ := List.append_of_mem hmem
    have hsplit' := hmain.trans (List.append_assoc ..)
    obtain ⟨rfl, rfl⟩ := hc.split_unique hsplit hsplit'
    have hblocks (x : ConfirmedBlock) (hx : x ∈ blocks) : x.block.hash ≠ first.block.previous := fun heq =>
      hin (List.mem_map.2 ⟨x, hx, heq⟩)
    exact ⟨_, gone, .of_stranger rfl hblocks hsplit, Nat.succ_pos _, hresult⟩

theorem unknown_of_commit {c c' : Chain} {batch : List ConfirmedBlock} {events : List ChainEvent}
    (hcommit : c.commit batch = .ok (c', events)) {b : ConfirmedBlock} (hb : b ∈ batch) :
    c.knows b.block.hash = false := by
  obtain ⟨-, _, _, -, -, hunknown, -⟩ := commit_eq_ok_iff.1 hcommit
  exact hunknown b hb

/-- How a chain comes about from another one by the batches that were put on it. -/
structure Built (start : Chain) (batches : List (List ConfirmedBlock)) (c : Chain) : Prop where
  wellFormed : c.WellFormed
  main : ∃ base, base ≠ [] ∧ base <+: start.main ∧ c.main = base ++ (standing batches).map fun b => b.block.hash
  recorded {b : ConfirmedBlock} : b ∈ standing batches → c.recorded b.block.hash = b.txids
  confirmed {txid : Digest} : txid ∈ txidsOf batches.flatten →
    (c.confirmed.contains txid = true ↔ ¬ Lost batches txid)
  brought {txid : Digest} : c.confirmed.contains txid = true →
    start.confirmed.contains txid = true ∨ txid ∈ txidsOf batches.flatten

namespace Built

theorem refl {c : Chain} (h : c.WellFormed) : Built c [] c where
  wellFormed := h
  main := ⟨c.main, h.main_ne_nil, List.prefix_rfl, (List.append_nil _).symm⟩
  recorded hb := by cases hb
  confirmed hbrought := by cases hbrought
  brought := Or.inl

theorem congr {start c c' : Chain} {batches : List (List ConfirmedBlock)} (h : Built start batches c)
    (hsame : c.SameBlocks c') : Built start batches c' where
  wellFormed := h.wellFormed.congr hsame
  main := by
    rw [hsame.main]
    exact h.main
  recorded hb := by
    rw [Chain.recorded, hsame.blockTxids]
    exact h.recorded hb
  confirmed hbrought := by
    rw [hsame.confirmed]
    exact h.confirmed hbrought
  brought hconfirmed := by
    rw [hsame.confirmed] at hconfirmed
    exact h.brought hconfirmed

theorem main_of_genesis {genesis : Header} {c : Chain} {batches : List (List ConfirmedBlock)}
    (h : Built (.ofGenesis genesis) batches c) :
    c.main = genesis.hash :: (standing batches).map fun b => b.block.hash := by
  obtain ⟨base, hbase, hprefix, hmain⟩ := h.main
  obtain ⟨hash, rest, rfl⟩ := List.exists_cons_of_ne_nil hbase
  obtain ⟨rfl, hrest⟩ := List.cons_prefix_cons.1 hprefix
  rw [hmain, List.prefix_nil.1 hrest, List.cons_append, List.nil_append]

/-- Whether a transaction that was brought goes with the blocks above a cut can be told from the blocks that were put on
the chain, even if the cut goes deeper. -/
theorem taken_iff {start c : Chain} {batches : List (List ConfirmedBlock)} (h : Built start batches c)
    {base below gone : List Digest} {batch : List ConfirmedBlock} {height : Nat}
    (hcut : Cut c base batch (standing batches) height below gone) {txid : Digest}
    (hstands : txid ∈ txidsOf (standing batches)) :
    (∀ hash ∈ c.main.drop height, txid ∉ c.recorded hash) ↔ txid ∉ txidsOf (undone batch (standing batches)) := by
  have hundone {b : ConfirmedBlock} (hb : b ∈ undone batch (standing batches)) : b ∈ standing batches :=
    (List.rtakeWhile_suffix _ _).subset hb
  constructor
  · intro hnone htaken
    obtain ⟨b, hb, htxid⟩ := mem_txidsOf.1 htaken
    refine hnone b.block.hash ?_ ?_
    · rw [hcut.drop_eq]
      exact List.mem_append_right _ (List.mem_map_of_mem hb)
    · rw [h.recorded (hundone hb)]
      exact htxid
  · intro hnot hash hmem hrecorded
    rw [hcut.drop_eq, List.mem_append] at hmem
    rcases hmem with hgone | hmem
    · -- the base is cut, so all of the blocks go, and one of them carries the transaction
      have hkept := hcut.kept_or.resolve_left (List.ne_nil_of_mem hgone)
      rw [← kept_append_undone batch (standing batches), hkept, List.nil_append] at hstands
      exact hnot hstands
    · obtain ⟨b, hb, rfl⟩ := List.mem_map.1 hmem
      rw [h.recorded (hundone hb)] at hrecorded
      exact hnot (mem_txidsOf.2 ⟨b, hb, hrecorded⟩)

/-- **One more batch.** -/
theorem commit {start c c' : Chain} {batches : List (List ConfirmedBlock)} (h : Built start batches c)
    {batch : List ConfirmedBlock} {events : List ChainEvent} (hnodup : (batch.map fun b => b.block.hash).Nodup)
    (hcommit : c.commit batch = .ok (c', events)) : Built start (batches ++ [batch]) c' := by
  obtain ⟨base, hbase, hprefix, hmain⟩ := h.main
  obtain ⟨height, below, gone, hcut, hheight, hresult⟩ := exists_cut h.wellFormed hbase hmain hcommit
  have hc' : c' = (c.reorganise height batch).1 := by rw [hresult]
  have hconfirmed (txid : Digest) := contains_confirmed_reorganise c height batch txid
  rw [← hc'] at hconfirmed
  constructor
  case wellFormed => exact h.wellFormed.commit hnodup hcommit
  case main =>
    refine ⟨below, hcut.below_ne_nil, ?_, ?_⟩
    · exact (List.prefix_append _ _).trans (hcut.base_eq ▸ hprefix)
    · rw [hc', main_reorganise, hcut.take_eq, standing_concat, List.map_append, List.append_assoc]
  case recorded =>
    intro b hb
    rw [standing_concat, List.mem_append] at hb
    rw [hc', Chain.recorded, reorganise_fst]
    rcases hb with hkept | hb
    · have htake : b.block.hash ∈ c.main.take height := by
        rw [hcut.take_eq]
        exact List.mem_append_right _ (List.mem_map_of_mem hkept)
      obtain ⟨hmem, hstays⟩ := (mem_take_iff h.wellFormed.nodup_main _ _).1 htake
      have hnew : b.block.hash ∉ batch.map fun b => b.block.hash := fun hin => by
        obtain ⟨x, hx, heq⟩ := List.mem_map.1 hin
        have hunknown := unknown_of_commit hcommit hx
        rw [heq, (h.wellFormed.knows_iff _).2 hmem] at hunknown
        cases hunknown
      rw [blockTxids_connectAll_of_not_mem batch _ hnew, blockTxids_rollBack, if_neg hstays]
      exact h.recorded ((List.rdropWhile_prefix _ _).subset hkept)
    · rw [blockTxids_connectAll batch _ hnodup b hb]
      rfl
  case confirmed =>
    intro txid hbrought
    rw [hconfirmed]
    by_cases hbatch : txid ∈ txidsOf batch
    · exact ⟨fun _ => not_lost_concat hbatch, fun _ => Or.inl hbatch⟩
    rw [List.flatten_concat, txidsOf_append, List.mem_append] at hbrought
    have hbefore := hbrought.resolve_right hbatch
    rw [lost_concat_iff hbatch, not_or, h.confirmed hbefore, or_iff_right hbatch]
    exact and_congr_right fun hlost => h.taken_iff hcut (mem_standing_of_not_lost hbefore hlost)
  case brought =>
    intro txid hnow
    rw [List.flatten_concat, txidsOf_append, List.mem_append]
    rcases (hconfirmed txid).1 hnow with hbatch | ⟨hbefore, -⟩
    · exact Or.inr (Or.inr hbatch)
    · exact (h.brought hbefore).imp_right Or.inl

end Built
end Chain
end LightClient
