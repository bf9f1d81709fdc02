import Mathlib.Data.List.Chain
import LightClient.Chain
/-!
# What a commit does

A batch is taken exactly if the chain is open, the batch hangs together, its first block builds on the main chain and
none of its blocks is known (`commit_eq_ok_iff`). A commit is then a roll-back followed by one `connect` for each block;
the lemmas here say what the two do to the tables.
-/
namespace LightClient
namespace Chain

/-! ## When a batch is taken -/

/-- Each block of a batch names the one before as its parent. -/
def Linked (batch : List ConfirmedBlock) : Prop := batch.IsChain fun a b => b.block.previous = a.block.hash

theorem firstGap?_eq_none_iff : ∀ (batch : List ConfirmedBlock), firstGap? batch = none ↔ Linked batch
  | [] => by simp [firstGap?, Linked]
  | [a] => by simp [firstGap?, Linked]
  | a :: b :: rest => by
    rw [firstGap?, Linked, List.isChain_cons_cons, ← Linked, ← firstGap?_eq_none_iff (b :: rest)]
    by_cases h : b.block.previous = a.block.hash <;> simp [h]

theorem keptBelow?_eq_none_iff {c : Chain} {parent : Digest} : c.keptBelow? parent = none ↔ parent ∉ c.main := by
  simp [keptBelow?]

/-- What stays below a batch ends with the last occurrence of the parent. -/
theorem keptBelow?_append {c : Chain} {parent : Digest} {below above : List Digest}
    (hmain : c.main = below ++ parent :: above) (habove : parent ∉ above) :
    c.keptBelow? parent = some (below.length + 1) := by
  have hindex : c.main.reverse.idxOf? parent = some above.length := by
    rw [hmain, List.reverse_append, List.reverse_cons, List.append_assoc, List.idxOf?_eq_some_iff]
    refine ⟨by simp, by simp, fun j hj hjp => habove ?_⟩
    rw [List.getElem_append_left (by simpa using hj)] at hjp
    rw [← hjp, List.getElem_reverse]
    exact List.getElem_mem _
  rw [keptBelow?, hindex, Option.map_some, hmain]
  simp only [List.length_append, List.length_cons, Option.some.injEq]
  omega

theorem exists_keptBelow? {c : Chain} {parent : Digest} (h : parent ∈ c.main) :
    ∃ below above, c.main = below ++ parent :: above ∧ parent ∉ above ∧
      c.keptBelow? parent = some (below.length + 1) := by
  obtain ⟨above, below, hsplit, habove⟩ := List.eq_append_cons_of_mem (List.mem_reverse.2 h)
  have hmain : c.main = below.reverse ++ parent :: above.reverse := by
    rw [← List.reverse_reverse c.main, hsplit]
    simp
  have habove' : parent ∉ above.reverse := by simpa using habove
  exact ⟨_, _, hmain, habove', keptBelow?_append hmain habove'⟩

/-- **When a batch is taken, and what the chain becomes.** -/
theorem commit_eq_ok_iff {c c' : Chain} {batch : List ConfirmedBlock} {events : List ChainEvent} :
    c.commit batch = .ok (c', events) ↔
      c.isClosed = false ∧ ∃ first rest, batch = first :: rest ∧ Linked batch ∧
        (∀ b ∈ batch, c.knows b.block.hash = false) ∧
        ∃ below above, c.main = below ++ first.block.previous :: above ∧ first.block.previous ∉ above ∧
          c.reorganise (below.length + 1) batch = (c', events) := by
  constructor
  · intro h
    unfold commit at h
    split at h
    · cases h
    rename_i hopen
    split at h
    · cases h
    rename_i first rest
    split at h
    · cases h
    rename_i kept hkept
    split at h
    · cases h
    rename_i hgap
    split at h
    · cases h
    rename_i hknown
    have hmem : first.block.previous ∈ c.main := by
      by_contra hnot
      rw [keptBelow?_eq_none_iff.2 hnot] at hkept
      cases hkept
    obtain ⟨below, above, hmain, habove, hbelow⟩ := exists_keptBelow? hmem
    rw [hbelow] at hkept
    cases hkept
    refine ⟨by simpa using hopen, first, rest, rfl, (firstGap?_eq_none_iff _).1 hgap, ?_, below, above, hmain, habove,
      by simpa using h⟩
    simpa using hknown
  · rintro ⟨hopen, first, rest, rfl, hlinked, hknown, below, above, hmain, habove, hresult⟩
    have hfind : (first :: rest).find? (fun b => c.knows b.block.hash) = none := by
      simpa using hknown
    simp only [commit, hopen, keptBelow?_append hmain habove, (firstGap?_eq_none_iff _).2 hlinked, hfind, hresult]
    rfl

/-! ## Collected events -/

section Collect

variable {σ α β : Type} (step : σ → α → σ × List β)

/-- What the steps put out that start from a state, one after the other. -/
def collected : σ → List α → List β
  | _, [] => []
  | s, a :: l => (step s a).2 ++ collected (step s a).1 l

/-- A fold that takes along what its steps put out. -/
theorem foldl_collect : ∀ (l : List α) (s : σ) (out : List β),
    l.foldl (fun acc a => ((step acc.1 a).1, acc.2 ++ (step acc.1 a).2)) (s, out) =
      (l.foldl (fun s a => (step s a).1) s, out ++ collected step s l)
  | [], s, out => by simp [collected]
  | a :: l, s, out => by
    rw [List.foldl_cons, foldl_collect l, collected, List.foldl_cons, List.append_assoc]

end Collect

/-! ## Rolling back -/

/-- The transactions that came with a block. -/
def recorded (c : Chain) (hash : Digest) : List Digest := (c.blockTxids.get? hash).getD []

def forgetAll (c : Chain) (hashes : List Digest) : Chain := hashes.foldl (fun c hash => (c.forget hash).1) c

theorem rollBack_eq (c : Chain) (kept : Nat) :
    c.rollBack kept = (forgetAll { c with main := c.main.take kept } (c.main.drop kept).reverse,
      collected forget { c with main := c.main.take kept } (c.main.drop kept).reverse) :=
  foldl_collect forget _ _ []

theorem rollBack_fst (c : Chain) (kept : Nat) :
    (c.rollBack kept).1 = forgetAll { c with main := c.main.take kept } (c.main.drop kept).reverse := by
  rw [rollBack_eq]

theorem get?_foldl_erase {α : Type} : ∀ (keys : List Digest) (t : Table Digest α) (x : Digest),
    (keys.foldl Table.erase t).get? x = if x ∈ keys then none else t.get? x
  | [], t, x => by simp
  | k :: keys, t, x => by
    rw [List.foldl_cons, get?_foldl_erase keys, Table.get?_erase]
    by_cases hk : x = k
    · simp [hk]
    · simp [hk]

theorem main_forgetAll : ∀ (hashes : List Digest) (c : Chain), (forgetAll c hashes).main = c.main
  | [], _ => rfl
  | hash :: hashes, c => main_forgetAll hashes (c.forget hash).1

theorem headers_forgetAll : ∀ (hashes : List Digest) (c : Chain),
    (forgetAll c hashes).headers = hashes.foldl Table.erase c.headers
  | [], _ => rfl
  | hash :: hashes, c => headers_forgetAll hashes (c.forget hash).1

theorem blockTxids_forgetAll : ∀ (hashes : List Digest) (c : Chain),
    (forgetAll c hashes).blockTxids = hashes.foldl Table.erase c.blockTxids
  | [], _ => rfl
  | hash :: hashes, c => blockTxids_forgetAll hashes (c.forget hash).1

theorem recorded_forget (c : Chain) (hash x : Digest) :
    (c.forget hash).1.recorded x = if x = hash then [] else c.recorded x := by
  unfold recorded forget
  rw [Table.get?_erase]
  split <;> rfl

/-- The transactions that came with a block go with it. -/
theorem confirmed_forgetAll : ∀ (hashes : List Digest) (c : Chain) (x : Digest),
    (forgetAll c hashes).confirmed.get? x =
      if ∃ hash ∈ hashes, x ∈ c.recorded hash then none else c.confirmed.get? x
  | [], c, x => by simp [forgetAll]
  | hash :: hashes, c, x => by
    have hnow : (c.forget hash).1.confirmed.get? x = if x ∈ c.recorded hash then none else c.confirmed.get? x :=
      get?_foldl_erase (c.recorded hash) c.confirmed x
    change (forgetAll (c.forget hash).1 hashes).confirmed.get? x = _
    rw [confirmed_forgetAll hashes, hnow]
    by_cases hx : x ∈ c.recorded hash
    · simp [hx]
    · have hiff : (∃ y ∈ hashes, x ∈ (c.forget hash).1.recorded y) ↔ ∃ y ∈ hash :: hashes, x ∈ c.recorded y := by
        constructor
        · rintro ⟨y, hy, hxy⟩
          rw [recorded_forget] at hxy
          split at hxy
          · cases hxy
          · exact ⟨y, List.mem_cons_of_mem _ hy, hxy⟩
        · rintro ⟨y, hy, hxy⟩
          have hne : y ≠ hash := by
            rintro rfl
            exact hx hxy
          refine ⟨y, (List.mem_cons.1 hy).resolve_left hne, ?_⟩
          rw [recorded_forget, if_neg hne]
          exact hxy
      simp only [hiff, hx, if_false]

section RollBack

variable (c : Chain) (kept : Nat)

theorem main_rollBack : (c.rollBack kept).1.main = c.main.take kept := by
  rw [rollBack_fst, main_forgetAll]

theorem headers_rollBack (x : Digest) :
    (c.rollBack kept).1.headers.get? x = if x ∈ c.main.drop kept then none else c.headers.get? x := by
  rw [rollBack_fst, headers_forgetAll, get?_foldl_erase]
  simp only [List.mem_reverse]

theorem blockTxids_rollBack (x : Digest) :
    (c.rollBack kept).1.blockTxids.get? x = if x ∈ c.main.drop kept then none else c.blockTxids.get? x := by
  rw [rollBack_fst, blockTxids_forgetAll, get?_foldl_erase]
  simp only [List.mem_reverse]

theorem confirmed_rollBack (x : Digest) :
    (c.rollBack kept).1.confirmed.get? x =
      if ∃ hash ∈ c.main.drop kept, x ∈ c.recorded hash then none else c.confirmed.get? x := by
  rw [rollBack_fst, confirmed_forgetAll]
  simp only [List.mem_reverse]
  rfl

end RollBack

/-! ## Connecting -/

section Connect

variable (c : Chain) (b : ConfirmedBlock)

theorem main_connect : (c.connect b).1.main = c.main ++ [b.block.hash] := rfl

theorem headers_connect (x : Digest) :
    (c.connect b).1.headers.get? x =
      if x = b.block.hash then some { b.block.header with height := c.main.length } else c.headers.get? x :=
  Table.get?_insert _ _ _ _

theorem blockTxids_connect (x : Digest) :
    (c.connect b).1.blockTxids.get? x =
      if x = b.block.hash then some (b.transactions.map Transaction.txid) else c.blockTxids.get? x :=
  Table.get?_insert _ _ _ _

theorem get?_foldl_insert : ∀ (txs : List Transaction) (t : Table Digest Transaction) (x : Digest),
    (txs.foldl (fun t tx => t.insert tx.txid tx) t).get? x =
      (txs.reverse.find? fun tx => tx.txid = x).or (t.get? x)
  | [], t, x => by simp
  | tx :: txs, t, x => by
    rw [List.foldl_cons, get?_foldl_insert txs, Table.get?_insert, List.reverse_cons, List.find?_append,
      List.find?_singleton, Option.or_assoc]
    by_cases hx : x = tx.txid
    · simp [hx]
    · simp [hx, Ne.symm hx]

theorem confirmed_connect (x : Digest) :
    (c.connect b).1.confirmed.get? x = (b.transactions.reverse.find? fun tx => tx.txid = x).or (c.confirmed.get? x) :=
  get?_foldl_insert _ _ _

end Connect

theorem connectAll_eq (c : Chain) (batch : List ConfirmedBlock) :
    c.connectAll batch = (batch.foldl (fun c b => (c.connect b).1) c, collected connect c batch) :=
  foldl_collect connect _ _ []

theorem connectAll_fst (c : Chain) (batch : List ConfirmedBlock) :
    (c.connectAll batch).1 = batch.foldl (fun c b => (c.connect b).1) c := by
  rw [connectAll_eq]

theorem reorganise_fst (c : Chain) (kept : Nat) (batch : List ConfirmedBlock) :
    (c.reorganise kept batch).1 = batch.foldl (fun c b => (c.connect b).1) (c.rollBack kept).1 :=
  connectAll_fst _ _

theorem main_connectAll : ∀ (batch : List ConfirmedBlock) (c : Chain),
    (batch.foldl (fun c b => (c.connect b).1) c).main = c.main ++ batch.map fun b => b.block.hash
  | [], c => by simp
  | b :: batch, c => by
    rw [List.foldl_cons, main_connectAll batch, main_connect]
    simp

theorem blockTxids_connectAll_of_not_mem : ∀ (batch : List ConfirmedBlock) (c : Chain) {x : Digest},
    (x ∉ batch.map fun b => b.block.hash) →
      (batch.foldl (fun c b => (c.connect b).1) c).blockTxids.get? x = c.blockTxids.get? x
  | [], _, _, _ => rfl
  | b :: batch, c, x, hx => by
    rw [List.map_cons, List.mem_cons, not_or] at hx
    rw [List.foldl_cons, blockTxids_connectAll_of_not_mem batch _ hx.2, blockTxids_connect, if_neg hx.1]

theorem blockTxids_connectAll : ∀ (batch : List ConfirmedBlock) (c : Chain),
    (batch.map fun b => b.block.hash).Nodup → ∀ b ∈ batch,
      (batch.foldl (fun c b => (c.connect b).1) c).blockTxids.get? b.block.hash =
        some (b.transactions.map Transaction.txid)
  | [], _, _, _, hb => absurd hb List.not_mem_nil
  | a :: batch, c, hnodup, b, hb => by
    rw [List.map_cons, List.nodup_cons] at hnodup
    rw [List.foldl_cons]
    rcases List.mem_cons.1 hb with rfl | hb
    · rw [blockTxids_connectAll_of_not_mem batch _ hnodup.1, blockTxids_connect, if_pos rfl]
    · exact blockTxids_connectAll batch _ hnodup.2 b hb

/-- The last of several transactions with one name stays. -/
theorem confirmed_connectAll : ∀ (batch : List ConfirmedBlock) (c : Chain) (x : Digest),
    (batch.foldl (fun c b => (c.connect b).1) c).confirmed.get? x =
      ((batch.flatMap ConfirmedBlock.transactions).reverse.find? fun tx => tx.txid = x).or (c.confirmed.get? x)
  | [], c, x => by simp
  | b :: batch, c, x => by
    rw [List.foldl_cons, confirmed_connectAll batch, confirmed_connect, List.flatMap_cons, List.reverse_append,
      List.find?_append, Option.or_assoc]

/-- **A commit leaves the main chain up to the batch's parent, followed by the batch.** -/
theorem main_reorganise (c : Chain) (kept : Nat) (batch : List ConfirmedBlock) :
    (c.reorganise kept batch).1.main = c.main.take kept ++ batch.map fun b => b.block.hash := by
  rw [reorganise_fst, main_connectAll, main_rollBack]

end Chain
end LightClient
