import Mathlib.Data.Set.Card
import LightClient.Proofs.Chain.WellFormed
import LightClient.Proofs.Requests.Histories
import LightClient.Proofs.Requests.Order
/-!
# The batch of a round

If the arrived blocks of a round do not lie on one another in a circle, each has a depth: the number of blocks below it
(`isForest_iff_acyclic`). So `ordered` lists each of them once. It lists a block after its parent
(`previous_mem_of_ordered`) and those without a parent here in the order in which they were asked for (`heads_ordered`).
Nothing of it depends on the order of arrival (`batch_congr`). `batch_of_history` puts this together.

The list may as well be made by a walk that keeps the blocks to come on a stack (`walks_iff_eq_ordered`).
-/
namespace LightClient
namespace Requests

/-! ## Circles -/

/-- An arrived block has another arrived block as its parent. -/
def LiesOn (r : Requests) (hash parent : Digest) : Prop :=
  ∃ a, r.blocks.get? hash = some a ∧ a.block.previous = parent ∧ r.hasBlock parent = true

/-- No chain of arrived blocks, from each to its parent, comes back to its beginning. -/
def Acyclic (r : Requests) : Prop := ∀ hash, ¬ Relation.TransGen r.LiesOn hash hash

/-- The arrived blocks below a block. -/
def below (r : Requests) (hash : Digest) : Set Digest := {x | Relation.TransGen r.LiesOn hash x}

theorem finite_below (r : Requests) (hash : Digest) : (r.below hash).Finite := by
  refine (List.finite_toSet r.blocks.keys).subset fun x hx => ?_
  obtain ⟨_, -, _, -, -, hhas⟩ := Relation.TransGen.tail'_iff.1 hx
  exact Table.contains_iff.1 hhas

theorem below_of_parent {r : Requests} {hash : Digest} {a : Arrival} (hget : r.blocks.get? hash = some a)
    (hparent : r.hasBlock a.block.previous = true) :
    r.below hash = insert a.block.previous (r.below a.block.previous) := by
  ext x
  constructor
  · intro hx
    obtain ⟨parent, ⟨a', hget', rfl, -⟩, hx⟩ := Relation.TransGen.head'_iff.1 hx
    obtain rfl := Option.some.inj (hget.symm.trans hget')
    exact Relation.reflTransGen_iff_eq_or_transGen.1 hx
  · intro hx
    exact Relation.TransGen.head' ⟨a, hget, rfl, hparent⟩ (Relation.reflTransGen_iff_eq_or_transGen.2 hx)

theorem below_of_stranger {r : Requests} {hash : Digest} {a : Arrival} (hget : r.blocks.get? hash = some a)
    (hparent : r.hasBlock a.block.previous = false) : r.below hash = ∅ := by
  refine Set.eq_empty_of_forall_notMem fun x hx => ?_
  obtain ⟨parent, ⟨a', hget', rfl, hhas⟩, -⟩ := Relation.TransGen.head'_iff.1 hx
  obtain rfl := Option.some.inj (hget.symm.trans hget')
  rw [hparent] at hhas
  cases hhas

/-- The depth of a block is greater than that of the blocks below it. -/
theorem depth_lt_of_below {r : Requests} {depth : Digest → Nat}
    (hdepth : ∀ hash a, r.blocks.get? hash = some a →
      depth hash = if r.hasBlock a.block.previous then depth a.block.previous + 1 else 0)
    {hash x : Digest} (h : x ∈ r.below hash) : depth x < depth hash := by
  have hstep {hash parent : Digest} (h : r.LiesOn hash parent) : depth parent < depth hash := by
    obtain ⟨a, hget, rfl, hparent⟩ := h
    rw [hdepth _ a hget, if_pos hparent]
    exact Nat.lt_succ_self _
  induction h with
  | single h => exact hstep h
  | tail _ h ih => exact Nat.lt_trans (hstep h) ih

/-- **Blocks have depths exactly if they do not lie on one another in a circle.** -/
theorem isForest_iff_acyclic (r : Requests) : r.IsForest ↔ r.Acyclic := by
  constructor
  · rintro ⟨depth, hdepth⟩ hash hcircle
    exact Nat.lt_irrefl _ (depth_lt_of_below hdepth hcircle)
  · intro hacyclic
    refine ⟨fun hash => (r.below hash).ncard, fun hash a hget => ?_⟩
    beta_reduce
    cases hparent : r.hasBlock a.block.previous with
    | true =>
      rw [below_of_parent hget hparent, if_pos rfl]
      exact Set.ncard_insert_of_notMem (hacyclic a.block.previous) (r.finite_below _)
    | false => rw [below_of_stranger hget hparent, if_neg Bool.false_ne_true, Set.ncard_empty]

/-! ## Parents -/

/-- Where an item of a list of lists stands. -/
theorem exists_of_flatMap_eq_append {α β : Type} {f : α → List β} {x : β} {post : List β} :
    ∀ {l : List α} {pre : List β}, l.flatMap f = pre ++ x :: post →
      ∃ c ∈ l, ∃ before inner rest, pre = before ++ inner ∧ f c = inner ++ x :: rest
  | [], pre, h => by simp at h
  | c :: l, pre, h => by
    rw [List.flatMap_cons, List.append_eq_append_iff] at h
    obtain ⟨inner, hpre, hrest⟩ | ⟨rest, hc, hrest⟩ := h
    · obtain ⟨d, hd, before, inner', rest, rfl, hfd⟩ := exists_of_flatMap_eq_append hrest
      exact ⟨d, List.mem_cons_of_mem _ hd, f c ++ before, inner', rest, by rw [hpre, List.append_assoc], hfd⟩
    · cases rest with
      | nil =>
        rw [List.append_nil] at hc
        have hrest : l.flatMap f = [] ++ x :: post := hrest.symm
        obtain ⟨d, hd, before, inner', rest, hnil, hfd⟩ := exists_of_flatMap_eq_append hrest
        obtain ⟨rfl, rfl⟩ := List.append_eq_nil_iff.1 hnil.symm
        exact ⟨d, List.mem_cons_of_mem _ hd, pre, [], rest, (List.append_nil _).symm, hfd⟩
      | cons y rest =>
        obtain ⟨rfl, -⟩ := List.cons.inj hrest
        exact ⟨c, List.mem_cons_self, [], pre, rest, rfl, hc⟩

section Forest

variable {arrived : List (Digest × Arrival)}

/-- In a family, a block comes after its parent; only the head of the family may have none in it. -/
theorem previous_mem_of_familyAmong {x : Digest × Arrival} {post : List (Digest × Arrival)} :
    ∀ (n : Nat) {a : Digest × Arrival} {pre : List (Digest × Arrival)}, familyAmong arrived n a = pre ++ x :: post →
      pre = [] ∧ x = a ∨ x.2.block.previous ∈ pre.map Prod.fst
  | 0, _, pre, h => by simp [familyAmong] at h
  | n + 1, a, [], h => by
    rw [familyAmong] at h
    exact Or.inl ⟨rfl, (List.cons.inj h).1.symm⟩
  | n + 1, a, y :: pre, h => by
    rw [familyAmong] at h
    obtain ⟨rfl, hchildren⟩ := List.cons.inj h
    obtain ⟨c, hc, before, inner, rest, rfl, hfamily⟩ := exists_of_flatMap_eq_append hchildren
    right
    rw [List.map_cons, List.map_append]
    rcases previous_mem_of_familyAmong n hfamily with ⟨-, rfl⟩ | hmem
    · rw [(mem_childrenAmong.1 hc).2]
      exact List.mem_cons_self
    · exact List.mem_cons_of_mem _ (List.mem_append_right _ hmem)

/-- Of a family, at most its head has no parent among the arrived blocks. -/
theorem heads_familyAmong {a : Digest × Arrival} (ha : a ∈ arrived)
    (hparent : a.2.block.previous ∉ arrived.map Prod.fst) (n : Nat) :
    (familyAmong arrived (n + 1) a).filter (fun x => x.2.block.previous ∉ arrived.map Prod.fst) = [a] := by
  rw [familyAmong, List.filter_cons_of_pos (by simpa using hparent), List.filter_eq_nil_iff.2]
  intro x hx hstranger
  obtain ⟨c, hc, hx⟩ := List.mem_flatMap.1 hx
  obtain ⟨hc, hprevious⟩ := mem_childrenAmong.1 hc
  obtain ⟨k, -, hdescends⟩ := (mem_familyAmong n hc).1 hx
  have hchild : Descends arrived (k + 1) a x := .child ha hc hprevious hdescends
  obtain ⟨p, hp, hxp⟩ := hchild.parent
  rw [decide_eq_true_eq, hxp] at hstranger
  exact hstranger (List.mem_map_of_mem hp.mem_right)

theorem heads_families (arrived : List (Digest × Arrival)) :
    (families arrived).filter (fun x => x.2.block.previous ∉ arrived.map Prod.fst) =
      arrived.filter fun x => x.2.block.previous ∉ arrived.map Prod.fst := by
  rw [families, List.filter_flatMap]
  conv_rhs => rw [← List.flatMap_singleton' (arrived.filter _)]
  refine List.flatMap_congr fun a ha => ?_
  obtain ⟨ha, hparent⟩ := List.mem_filter.1 ha
  obtain ⟨n, hn⟩ : ∃ n, arrived.length = n + 1 := ⟨arrived.length - 1, by
    have := List.length_pos_of_mem ha
    omega⟩
  rw [hn]
  exact heads_familyAmong ha (by simpa using hparent) n

end Forest

/-- **A block is listed after its parent.** -/
theorem previous_mem_of_ordered {r : Requests} {x : Digest × Arrival} {pre post : List (Digest × Arrival)}
    (hordered : r.ordered = pre ++ x :: post) (hparent : r.hasBlock x.2.block.previous = true) :
    x.2.block.previous ∈ pre.map Prod.fst := by
  obtain ⟨a, ha, before, inner, rest, rfl, hfamily⟩ := exists_of_flatMap_eq_append hordered
  rw [List.map_append]
  rcases previous_mem_of_familyAmong _ hfamily with ⟨-, rfl⟩ | hmem
  · have hstranger := (List.mem_filter.1 ha).2
    rw [hparent] at hstranger
    cases hstranger
  · exact List.mem_append_right _ hmem

/-- The blocks that were asked for and are here without their parent, in the order in which they were asked for. -/
def heads (r : Requests) : List Digest :=
  r.requested.filter fun hash => (r.blocks.get? hash).any fun a => !r.hasBlock a.block.previous

theorem heads_eq (r : Requests) :
    (r.arrivals.filter fun x => !r.hasBlock x.2.block.previous).map Prod.fst = r.heads := by
  unfold arrivals heads
  induction r.requested with
  | nil => rfl
  | cons hash rest ih =>
    rw [List.filterMap_cons, List.filter_cons]
    cases hget : r.blocks.get? hash with
    | none => simpa [hget] using ih
    | some a =>
      rw [Option.map_some, List.filter_cons, Option.any_some]
      split
      · rw [List.map_cons, ih]
      · exact ih

/-- **The blocks without a parent here** are listed in the order in which they were asked for. -/
theorem heads_ordered {r : Requests} (h : r.Consistent) :
    (r.ordered.filter fun x => !r.hasBlock x.2.block.previous).map Prod.fst = r.heads := by
  rw [← heads_eq, ordered_eq_families h]
  simp only [not_hasBlock_eq h, heads_families]

/-! ## A walk with a stack -/

/-- The walk over the arrived blocks that takes the next block from a stack. If the block was listed before, it is
passed over. Otherwise it is listed, and its children are the next to be taken. -/
inductive Walks (arrived : List (Digest × Arrival)) : (stack listed result : List (Digest × Arrival)) → Prop where
  | done {listed} : Walks arrived [] listed listed
  | pass {x stack listed result} : x ∈ listed → Walks arrived stack listed result →
      Walks arrived (x :: stack) listed result
  | list {x stack listed result} : x ∉ listed →
      Walks arrived (childrenAmong arrived x.1 ++ stack) (listed ++ [x]) result →
      Walks arrived (x :: stack) listed result

section Walk

variable {arrived : List (Digest × Arrival)} {depth : Digest → Nat}

theorem Walks.unique {stack listed result result' : List (Digest × Arrival)} (h : Walks arrived stack listed result)
    (h' : Walks arrived stack listed result') : result = result' := by
  induction h with
  | done =>
    cases h'
    rfl
  | pass hmem _ ih =>
    cases h' with
    | pass _ h' => exact ih h'
    | list hnew _ => exact absurd hmem hnew
  | list hnew _ ih =>
    cases h' with
    | pass hmem _ => exact absurd hmem hnew
    | list _ h' => exact ih h'

/-- A walk that has to go through some families, and has listed no block of them, lists them one after the other. -/
theorem Walks.families {n : Nat} {stack result : List (Digest × Arrival)} : ∀ {heads listed : List (Digest × Arrival)},
    (∀ a ∈ heads, ∀ {stack listed : List (Digest × Arrival)}, (listed ++ familyAmong arrived n a).Nodup →
      Walks arrived stack (listed ++ familyAmong arrived n a) result → Walks arrived (a :: stack) listed result) →
    (listed ++ heads.flatMap (familyAmong arrived n)).Nodup →
    Walks arrived stack (listed ++ heads.flatMap (familyAmong arrived n)) result →
      Walks arrived (heads ++ stack) listed result
  | [], listed, _, _, h => by simpa using h
  | a :: heads, listed, hone, hnodup, h => by
    rw [List.flatMap_cons, ← List.append_assoc] at hnodup h
    refine hone a List.mem_cons_self (List.nodup_append.1 hnodup).1 ?_
    exact Walks.families (fun b hb => hone b (List.mem_cons_of_mem _ hb)) hnodup h

theorem Walks.family (hd : IsDepth arrived depth) {result : List (Digest × Arrival)} : ∀ (n : Nat)
    {a : Digest × Arrival}, a ∈ arrived → arrived.length ≤ depth a.1 + n →
    ∀ {stack listed : List (Digest × Arrival)}, (listed ++ familyAmong arrived n a).Nodup →
      Walks arrived stack (listed ++ familyAmong arrived n a) result → Walks arrived (a :: stack) listed result
  | 0, a, ha, hn, _, _, _, _ => by
    have := depth_lt_length hd ha
    omega
  | n + 1, a, ha, hn, stack, listed, hnodup, h => by
    rw [familyAmong, ← List.singleton_append, ← List.append_assoc] at hnodup h
    have hnew : a ∉ listed := by
      have := (List.nodup_append.1 (List.nodup_append.1 hnodup).1).2.2
      exact fun hmem => this a hmem a (List.mem_singleton_self a) rfl
    refine .list hnew (Walks.families (fun c hc => ?_) hnodup h)
    obtain ⟨hc, hprevious⟩ := mem_childrenAmong.1 hc
    have := hd.of_parent ha hc hprevious
    intro stack listed hnodup h
    exact Walks.family hd n hc (by omega) hnodup h

end Walk

/-- **The walk that begins with the blocks without a parent here ends**, and lists the blocks as `ordered` does. -/
theorem walks_iff_eq_ordered {r : Requests} (h : r.Consistent) (hf : r.IsForest) {result : List (Digest × Arrival)} :
    Walks r.arrivals (r.arrivals.filter fun x => !r.hasBlock x.2.block.previous) [] result ↔ result = r.ordered := by
  have hwalks : Walks r.arrivals (r.arrivals.filter fun x => !r.hasBlock x.2.block.previous) [] r.ordered := by
    obtain ⟨depth, hd⟩ := hf.isDepth h
    have hnodup : r.ordered.Nodup := (ordered_perm h hf).nodup_iff.2 (nodup_arrivals_keys h).of_map
    rw [← List.append_nil (r.arrivals.filter _)]
    refine Walks.families (fun a ha => ?_) hnodup .done
    exact Walks.family hd _ (List.mem_filter.1 ha).1 (Nat.le_add_left _ _)
  constructor
  · exact fun hresult => hresult.unique hwalks
  · rintro rfl
    exact hwalks

/-! ## The batch -/

theorem mem_batch_iff {r : Requests} (h : r.Consistent) (hf : r.IsForest) {b : ConfirmedBlock} :
    b ∈ r.batch ↔ ∃ a, r.blocks.get? b.block.hash = some a ∧ a.block = b.block ∧
      b.transactions = a.txids.filterMap r.transactions.get? := by
  rw [batch, List.mem_map]
  constructor
  · rintro ⟨x, hx, rfl⟩
    refine ⟨x.2, ?_, rfl, rfl⟩
    rw [hash_of_mem_ordered h hf hx]
    exact get?_of_mem_ordered hx
  · rintro ⟨a, hget, hblock, htransactions⟩
    refine ⟨(b.block.hash, a), (mem_ordered h hf).2 hget, ?_⟩
    rw [← htransactions, hblock]

theorem hashes_batch_perm {r : Requests} (h : r.Consistent) (hf : r.IsForest) :
    (r.batch.map fun b => b.block.hash).Perm r.blocks.keys := by
  have hkeys : r.blocks.keys.Nodup := r.blocks.nodup_keys
  rw [List.perm_ext_iff_of_nodup (nodup_batch h hf) hkeys]
  intro hash
  rw [hashes_batch h hf, ((ordered_perm h hf).map Prod.fst).mem_iff, mem_arrivals_keys h, hasBlock, Table.contains_iff]

theorem previous_mem_of_batch {r : Requests} (h : r.Consistent) (hf : r.IsForest) {b : ConfirmedBlock}
    {pre post : List ConfirmedBlock} (hbatch : r.batch = pre ++ b :: post)
    (hparent : r.hasBlock b.block.previous = true) : b.block.previous ∈ pre.map fun b => b.block.hash := by
  obtain ⟨before, rest, hordered, rfl, hrest⟩ := List.map_eq_append_iff.1 hbatch
  obtain ⟨x, after, rfl, rfl, rfl⟩ := List.map_eq_cons_iff.1 hrest
  have hhashes : before.map (fun x => x.2.block.hash) = before.map Prod.fst :=
    List.map_congr_left fun x hx => hash_of_mem_ordered h hf (by simp [hordered, hx])
  rw [List.map_map]
  exact hhashes ▸ previous_mem_of_ordered hordered hparent

theorem heads_batch {r : Requests} (h : r.Consistent) (hf : r.IsForest) :
    (r.batch.filter fun b => !r.hasBlock b.block.previous).map (fun b => b.block.hash) = r.heads := by
  rw [← heads_ordered h, batch, List.filter_map, List.map_map]
  exact List.map_congr_left fun x hx => hash_of_mem_ordered h hf (List.mem_of_mem_filter hx)

/-- Those of some transactions that are here, in the same order. -/
theorem txids_of_arrived {r : Requests} (h : r.Consistent) (txids : List Digest) :
    (txids.filterMap r.transactions.get?).map Transaction.txid = txids.filter r.transactions.contains := by
  induction txids with
  | nil => rfl
  | cons txid txids ih =>
    rw [List.filterMap_cons, List.filter_cons, Table.contains]
    cases hget : r.transactions.get? txid with
    | none => exact ih
    | some tx => rw [Option.isSome_some, if_pos rfl, List.map_cons, h.tx_txid hget, ih]

/-- **The order of arrival leaves no trace in the batch.** -/
theorem batch_congr {r r' : Requests} (hrequested : r'.requested = r.requested)
    (hblocks : ∀ hash, r'.blocks.get? hash = r.blocks.get? hash)
    (htransactions : ∀ txid, r'.transactions.get? txid = r.transactions.get? txid) : r'.batch = r.batch := by
  have harrivals : r'.arrivals = r.arrivals := by
    simp only [arrivals, hrequested, hblocks]
  have hhas : r'.hasBlock = r.hasBlock := by
    funext hash
    simp only [hasBlock, Table.contains, hblocks]
  have hget : r'.transactions.get? = r.transactions.get? := funext htransactions
  simp only [batch, ordered, harrivals, hhas, hget]

/-- **A round hands over everything that has arrived, parents first**, whatever was entered into its books, as long as
no blocks lie on one another in a circle. Each arrived block is in the batch once, and after its parent if that arrived,
too; the others stand in the order in which they were asked for. With a block go those transactions of its proof that
are here, in the order of the proof. Books that asked for the same blocks in the same order and were given the same
things make the same batch, in whatever order these came. -/
theorem batch_of_history {entries : List Entry} (hacyclic : (ofHistory entries).Acyclic) :
    let r := ofHistory entries
    (r.batch.map fun b => b.block.hash).Nodup ∧ (r.batch.map fun b => b.block.hash).Perm r.blocks.keys ∧
    (∀ pre b post, r.batch = pre ++ b :: post → r.hasBlock b.block.previous = true →
      b.block.previous ∈ pre.map fun b => b.block.hash) ∧
    (r.batch.filter fun b => !r.hasBlock b.block.previous).map (fun b => b.block.hash) = r.heads ∧
    (∀ b ∈ r.batch, ∃ a, r.blocks.get? b.block.hash = some a ∧ a.block = b.block ∧
      b.transactions = a.txids.filterMap r.transactions.get? ∧
      b.transactions.map Transaction.txid = a.txids.filter r.transactions.contains) ∧
    ∀ entries', (ofHistory entries').requested = r.requested →
      (∀ hash, (ofHistory entries').blocks.get? hash = r.blocks.get? hash) →
      (∀ txid, (ofHistory entries').transactions.get? txid = r.transactions.get? txid) →
      (ofHistory entries').batch = r.batch := by
  intro r
  have h : r.Consistent := consistent_of_history entries
  have hf : r.IsForest := (isForest_iff_acyclic r).2 hacyclic
  refine ⟨nodup_batch h hf, hashes_batch_perm h hf, fun _ _ _ => previous_mem_of_batch h hf, heads_batch h hf,
    fun b hb => ?_, fun _ => batch_congr⟩
  obtain ⟨a, hget, hblock, htransactions⟩ := (mem_batch_iff h hf).1 hb
  refine ⟨a, hget, hblock, htransactions, ?_⟩
  rw [htransactions, txids_of_arrived h]

end Requests

/-! ## A round asked for from the top -/

namespace Sample

def top : FilteredBlock := child paying.hash 3

def aside : FilteredBlock := child genesisHash 4

/-- The topmost block is asked for first and comes first. It is held back until its parent is here. -/
def fromTheTop : List Requests.Entry :=
  [.track [top.hash, aside.hash], .track [paying.hash], .holdBack top, .receiveBlock paying [payment.txid],
   .release (fun _ => false) top.hash, .receiveBlock top [], .receiveTx payment, .receiveBlock aside []]

end Sample

open Sample in
theorem Requests.batch_of_history_fromTheTop :
    (ofHistory fromTheTop).Acyclic ∧ (ofHistory fromTheTop).heads = [aside.hash, paying.hash] ∧
      ∀ entries, (ofHistory entries).requested = [top.hash, aside.hash, paying.hash] →
        (∀ hash, (ofHistory entries).blocks.get? hash = (ofHistory fromTheTop).blocks.get? hash) →
        (∀ txid, (ofHistory entries).transactions.get? txid = (ofHistory fromTheTop).transactions.get? txid) →
        (ofHistory entries).batch = [⟨aside, []⟩, ⟨paying, [payment]⟩, ⟨top, []⟩] := by
  obtain ⟨hdepth, hrequested, hheads, hbatch⟩ :
      (IsDepth (ofHistory fromTheTop).arrivals fun hash => if hash = top.hash then 1 else 0) ∧
      (ofHistory fromTheTop).requested = [top.hash, aside.hash, paying.hash] ∧
      (ofHistory fromTheTop).heads = [aside.hash, paying.hash] ∧
      (ofHistory fromTheTop).batch = [⟨aside, []⟩, ⟨paying, [payment]⟩, ⟨top, []⟩] := by
    decide +kernel
  have hacyclic : (ofHistory fromTheTop).Acyclic :=
    (isForest_iff_acyclic _).1 ((consistent_of_history _).isForest hdepth)
  obtain ⟨-, -, -, -, -, hunique⟩ := batch_of_history hacyclic
  rw [hrequested, hbatch] at hunique
  exact ⟨hacyclic, hheads, hunique⟩

end LightClient
