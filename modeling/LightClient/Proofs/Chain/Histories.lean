import LightClient.Proofs.Chain.Branch
import LightClient.Proofs.Chain.Listener
/-!
# Histories of a chain

A chain that begins with its genesis block keeps its shape whatever it is asked to do (`Store.shape_kept`): the main
chain, the stored headers and the records of transactions say the same thing.

Its two pools of transactions do not always say what one would expect. A transaction is confirmed exactly if a block of
the main chain carries it and it is not lost (`Store.confirmed_iff_standing`), and it is in both pools exactly if it was
submitted while it was confirmed and neither has changed since (`Store.confirmed_and_unconfirmed_iff`).
-/
namespace LightClient

/-! ## The shape -/

namespace Chain.WellFormed

variable {c : Chain} (h : c.WellFormed)
include h

/-- The header of each block of the main chain is there, at its height and on top of the block below. -/
theorem header_at {i : Nat} {hash : Digest} (hi : c.main[i]? = some hash) :
    ∃ header, c.headers.get? hash = some header ∧ header.hash = hash ∧ header.height = i ∧
      (0 < i → c.main[i - 1]? = some header.previous) := by
  obtain ⟨header, hget⟩ := h.exists_header (List.mem_of_getElem? hi)
  refine ⟨header, hget, h.header_hash hget, h.header_height hi hget, fun hpos => ?_⟩
  obtain ⟨j, rfl⟩ : ∃ j, i = j + 1 := ⟨i - 1, by omega⟩
  obtain ⟨hlt, rfl⟩ := List.getElem?_eq_some_iff.1 hi
  have hlinked := List.isChain_iff_getElem.1 h.linked j hlt header hget
  rw [Nat.add_sub_cancel, hlinked, List.getElem?_eq_getElem (by omega)]

theorem tip_at : c.main.getLast? = some c.tip.hash ∧ c.tip.height = c.height := by
  have hlast := List.getLast?_eq_some_getLast h.main_ne_nil
  have hindex : c.main[c.main.length - 1]? = some (c.main.getLast h.main_ne_nil) := by
    rw [← List.getLast?_eq_getElem?, hlast]
  obtain ⟨header, hget, hhash, hheight, -⟩ := h.header_at hindex
  have htip : c.tip = header := by rw [tip, hlast, Option.bind_some, hget, Option.getD_some]
  rw [htip, hhash]
  exact ⟨hlast, hheight⟩

end Chain.WellFormed

namespace Store

open Chain

/-! ## Batches that are taken -/

/-- The batch that a call puts on the chain, if it puts one there. -/
def taken (s : Store) : StoreCall → List (List ConfirmedBlock)
  | .commit batch =>
    match (s.commit batch).2 with
    | .ok () => [batch]
    | .error _ => []
  | _ => []

/-- The batches that some calls put on the chain, in order. -/
def history (s : Store) (calls : List StoreCall) : List (List ConfirmedBlock) :=
  collected (fun s call => (s.serve call, s.taken call)) s calls

theorem history_cons (s : Store) (call : StoreCall) (calls : List StoreCall) :
    s.history (call :: calls) = s.taken call ++ (s.serve call).history calls := rfl

theorem serve_commit_cases (s : Store) (batch : List ConfirmedBlock) :
    (s.taken (.commit batch) = [batch] ∧
      ∃ events, s.chain.commit batch = .ok ((s.serve (.commit batch)).chain, events)) ∨
    s.taken (.commit batch) = [] ∧ (s.serve (.commit batch)).chain = s.chain := by
  simp only [taken, serve]
  split
  · rename_i hresult
    exact Or.inl ⟨rfl, commit_eq_ok (Prod.ext rfl hresult)⟩
  · rename_i cause hresult
    exact Or.inr ⟨rfl, commit_eq_error (Prod.ext rfl hresult)⟩

/-- **What a call does to the blocks of a chain**: a batch is put on them, or they stay as they are. -/
theorem serve_cases (s : Store) (call : StoreCall) :
    (∃ batch events, call = .commit batch ∧ s.taken call = [batch] ∧
      s.chain.commit batch = .ok ((s.serve call).chain, events)) ∨
    s.taken call = [] ∧ s.chain.SameBlocks (s.serve call).chain := by
  cases call with
  | commit batch =>
    obtain ⟨htaken, events, hcommit⟩ | ⟨htaken, hsame⟩ := s.serve_commit_cases batch
    · exact Or.inl ⟨batch, events, rfl, htaken, hcommit⟩
    · exact Or.inr ⟨htaken, by rw [hsame]; exact .refl _⟩
  | submit tx => exact Or.inr ⟨rfl, s.sameBlocks_commitUnconfirmed tx⟩
  | watch _ | close => exact Or.inr ⟨rfl, rfl, rfl, rfl, rfl⟩

/-- The history of a store builds its chain. -/
theorem built_run {start : Chain} : ∀ (calls : List StoreCall) {s : Store} {batches : List (List ConfirmedBlock)},
    Built start batches s.chain → (∀ batch, .commit batch ∈ calls → (batch.map fun b => b.block.hash).Nodup) →
      Built start (batches ++ s.history calls) (calls.foldl serve s).chain
  | [], s, batches, h, _ => by
    rw [show s.history [] = [] from rfl, List.append_nil]
    exact h
  | call :: calls, s, batches, h, hdistinct => by
    -- the batch of the first call, if it has one, goes to those that are there, and the rest of the calls begin with it
    rw [history_cons, ← List.append_assoc]
    refine built_run calls ?_ fun batch hmem => hdistinct batch (List.mem_cons_of_mem _ hmem)
    obtain ⟨batch, events, rfl, htaken, hcommit⟩ | ⟨htaken, hsame⟩ := serve_cases s call
    · rw [htaken]
      exact h.commit (hdistinct batch List.mem_cons_self) hcommit
    · rw [htaken, List.append_nil]
      exact h.congr hsame

theorem built_of_genesis (genesis : Header) {calls : List StoreCall}
    (hdistinct : ∀ batch, .commit batch ∈ calls → (batch.map fun b => b.block.hash).Nodup) :
    Built (.ofGenesis genesis) ((ofChain (.ofGenesis genesis)).history calls)
      (calls.foldl serve (ofChain (.ofGenesis genesis))).chain := by
  have h : Built (.ofGenesis genesis) [] (ofChain (.ofGenesis genesis)).chain := .refl (.ofGenesis genesis)
  exact built_run calls h hdistinct

end Store

namespace Sample

/-- A payment comes with two blocks, one on top of the other, and the upper one gives way to a block without it. -/
def paidTwice : List StoreCall :=
  [⟨paying, [payment]⟩, ⟨child paying.hash 4, [payment]⟩, ⟨child paying.hash 7, []⟩].map fun b => .commit [b]

theorem distinct_paidTwice (batch : List ConfirmedBlock) (h : .commit batch ∈ paidTwice) :
    (batch.map fun b => b.block.hash).Nodup := by
  obtain ⟨b, -, hb⟩ := List.mem_map.1 h
  obtain rfl := StoreCall.commit.inj hb
  exact List.nodup_singleton _

theorem chain_paidTwice :
    (paidTwice.foldl Store.serve (.ofChain (.ofGenesis genesis))).chain.main.length = 3 ∧
      (paidTwice.foldl Store.serve (.ofChain (.ofGenesis genesis))).chain.confirmed.contains payment.txid = false ∧
      payment.txid ∈ Chain.txidsOf (Chain.standing ((Store.ofChain (.ofGenesis genesis)).history paidTwice)) := by
  decide +kernel

end Sample

namespace Store

open Chain Sample

/-- **A chain keeps its shape.** After any history the main chain runs from the genesis block without repeats; the
stored headers are those of the main chain, each under its own hash, at its height and on top of the one below; every
block but the genesis block has its record of transactions; and the tip is the end of the main chain. -/
theorem shape_kept (genesis : Header) {calls : List StoreCall}
    (hdistinct : ∀ batch, .commit batch ∈ calls → (batch.map fun b => b.block.hash).Nodup) :
    let c := (calls.foldl serve (ofChain (.ofGenesis genesis))).chain
    c.main.head? = some genesis.hash ∧ c.main.Nodup ∧
    (∀ hash, c.knows hash = true ↔ hash ∈ c.main) ∧
    (∀ i hash, c.main[i]? = some hash → ∃ header, c.headers.get? hash = some header ∧ header.hash = hash ∧
      header.height = i ∧ (0 < i → c.main[i - 1]? = some header.previous)) ∧
    (∀ hash, c.blockTxids.contains hash = true ↔ hash ∈ c.main ∧ hash ≠ genesis.hash) ∧
    c.main.getLast? = some c.tip.hash ∧ c.tip.height = c.height := by
  intro c
  have hbuilt := built_of_genesis genesis hdistinct
  have h := hbuilt.wellFormed
  have hmain : c.main = genesis.hash :: _ := hbuilt.main_of_genesis
  have hnodup := h.nodup_main
  refine ⟨by rw [hmain]; rfl, hnodup, h.knows_iff, fun i hash hi => h.header_at hi, fun hash => ?_, h.tip_at⟩
  rw [h.recorded_iff, hmain, List.tail_cons, List.mem_cons]
  change c.main.Nodup at hnodup
  rw [hmain, List.nodup_cons] at hnodup
  constructor
  · rintro hmem
    exact ⟨Or.inr hmem, fun heq => hnodup.1 (heq ▸ hmem)⟩
  · rintro ⟨hmem, hne⟩
    exact hmem.resolve_left hne

theorem shape_paidTwice :
    (∀ batch, .commit batch ∈ paidTwice → (batch.map fun b => b.block.hash).Nodup) ∧
      let c := (paidTwice.foldl serve (ofChain (.ofGenesis genesis))).chain
      c.main.head? = some genesis.hash ∧ c.main.Nodup ∧ (∀ hash, c.knows hash = true ↔ hash ∈ c.main) ∧
        c.main.getLast? = some c.tip.hash ∧ c.tip.height = 2 := by
  obtain ⟨hfirst, hnodup, hknows, -, -, htip, hheight⟩ := shape_kept genesis distinct_paidTwice
  refine ⟨distinct_paidTwice, hfirst, hnodup, hknows, htip, hheight.trans ?_⟩
  rw [height, chain_paidTwice.1]

/-! ## Confirmations -/

/-- **When a transaction is confirmed.** After any history the main chain is the genesis block and what stands of the
batches. A transaction is confirmed exactly if a block that stands carries it and it is not lost. -/
theorem confirmed_iff_standing (genesis : Header) {calls : List StoreCall}
    (hdistinct : ∀ batch, .commit batch ∈ calls → (batch.map fun b => b.block.hash).Nodup) :
    let c := (calls.foldl serve (ofChain (.ofGenesis genesis))).chain
    let batches := (ofChain (.ofGenesis genesis)).history calls
    c.main = genesis.hash :: (standing batches).map (fun b => b.block.hash) ∧
    ∀ txid, c.confirmed.contains txid = true ↔ txid ∈ txidsOf (standing batches) ∧ ¬ Lost batches txid := by
  intro c batches
  have h : Built (.ofGenesis genesis) batches c := built_of_genesis genesis hdistinct
  refine ⟨h.main_of_genesis, fun txid => ⟨fun hconfirmed => ?_, fun ⟨hstands, hlost⟩ => ?_⟩⟩
  · have hbrought := (h.brought hconfirmed).resolve_left Bool.false_ne_true
    have hlost := (h.confirmed hbrought).1 hconfirmed
    exact ⟨mem_standing_of_not_lost hbrought hlost, hlost⟩
  · obtain ⟨b, hb, htxid⟩ := mem_txidsOf.1 hstands
    exact (h.confirmed (mem_txidsOf.2 ⟨b, mem_flatten_of_mem_standing hb, htxid⟩)).2 hlost

/-- The lower block still carries the payment, which is lost. -/
theorem lost_paidTwice :
    (∀ batch, .commit batch ∈ paidTwice → (batch.map fun b => b.block.hash).Nodup) ∧
      let batches := (ofChain (.ofGenesis genesis)).history paidTwice
      payment.txid ∈ txidsOf (standing batches) ∧ Lost batches payment.txid ∧
        (paidTwice.foldl serve (ofChain (.ofGenesis genesis))).chain.confirmed.contains payment.txid = false := by
  obtain ⟨-, hgone, hstands⟩ := chain_paidTwice
  have hiff := (confirmed_iff_standing genesis distinct_paidTwice).2 payment.txid
  refine ⟨distinct_paidTwice, hstands, ?_, hgone⟩
  by_contra hlost
  have hconfirmed := hiff.2 ⟨hstands, hlost⟩
  rw [hgone] at hconfirmed
  cases hconfirmed

/-! ## Both pools -/

section Pools

variable {txid : Digest}

/-- A call confirms nothing but what it brings. -/
theorem confirmed_of_serve {s : Store} {call : StoreCall} (h : (s.serve call).chain.confirmed.contains txid = true)
    (hnot : txid ∉ txidsOf (s.taken call).flatten) : s.chain.confirmed.contains txid = true := by
  obtain ⟨batch, events, rfl, htaken, hcommit⟩ | ⟨-, hsame⟩ := serve_cases s call
  · obtain ⟨height, hc'⟩ := reorganise_of_commit hcommit
    rw [htaken, List.flatten_singleton] at hnot
    rw [hc', contains_confirmed_reorganise] at h
    exact (h.resolve_left hnot).1
  · rw [hsame.confirmed] at h
    exact h

theorem confirmed_of_run : ∀ (calls : List StoreCall) {s : Store},
    (calls.foldl serve s).chain.confirmed.contains txid = true → txid ∉ txidsOf (s.history calls).flatten →
      s.chain.confirmed.contains txid = true
  | [], _, h, _ => h
  | call :: calls, s, h, hnot => by
    rw [history_cons, List.flatten_append, txidsOf_append, List.mem_append, not_or] at hnot
    exact confirmed_of_serve (confirmed_of_run calls h hnot.2) hnot.1

/-- The chain says of a submitted transaction that it is no mistake of the filter. -/
def Keeps (s : Store) (call : StoreCall) (txid : Digest) : Prop :=
  ∃ tx, call = .submit tx ∧ tx.txid = txid ∧ (s.commitUnconfirmed tx).2 = .ok false

theorem unconfirmed_serve_iff (s : Store) (call : StoreCall) :
    (s.serve call).chain.unconfirmed.contains txid = true ↔
      s.chain.unconfirmed.contains txid = true ∧ txid ∉ txidsOf (s.taken call).flatten ∨ s.Keeps call txid := by
  have hnone : txid ∉ txidsOf ([] : List (List ConfirmedBlock)).flatten := List.not_mem_nil
  cases call with
  | commit batch =>
    have hnot : ¬ s.Keeps (.commit batch) txid := by
      rintro ⟨_, ⟨⟩, -⟩
    rw [or_iff_left hnot]
    obtain ⟨htaken, events, hcommit⟩ | ⟨htaken, hsame⟩ := s.serve_commit_cases batch
    · obtain ⟨height, hc'⟩ := reorganise_of_commit hcommit
      rw [htaken, hc', contains_unconfirmed_reorganise, List.flatten_singleton]
    · rw [htaken, hsame, and_iff_left hnone]
  | submit tx =>
    rw [show s.taken (.submit tx) = [] from rfl, and_iff_left hnone]
    refine (s.contains_unconfirmed_commitUnconfirmed tx txid).trans (or_congr_right ⟨?_, ?_⟩)
    · exact fun ⟨hkept, htxid⟩ => ⟨tx, rfl, htxid, hkept⟩
    · rintro ⟨tx, ⟨⟩, htxid, hkept⟩
      exact ⟨hkept, htxid⟩
  | watch _ | close =>
    refine ((or_iff_left ?_).trans (and_iff_left hnone)).symm
    rintro ⟨_, ⟨⟩, -⟩

/-- Some call submitted the transaction, the chain kept it, and no later call brought it. -/
def KeptSince (s : Store) (calls : List StoreCall) (txid : Digest) : Prop :=
  ∃ before call after, calls = before ++ call :: after ∧ (before.foldl serve s).Keeps call txid ∧
    txid ∉ txidsOf (((before.foldl serve s).serve call).history after).flatten

theorem keptSince_cons_iff (s : Store) (call : StoreCall) (calls : List StoreCall) :
    s.KeptSince (call :: calls) txid ↔
      s.Keeps call txid ∧ txid ∉ txidsOf ((s.serve call).history calls).flatten ∨
        (s.serve call).KeptSince calls txid := by
  constructor
  · rintro ⟨before, call', after, heq, hkeeps, hlater⟩
    cases before with
    | nil =>
      cases heq
      exact Or.inl ⟨hkeeps, hlater⟩
    | cons _ before =>
      cases heq
      exact Or.inr ⟨before, call', after, rfl, hkeeps, hlater⟩
  · rintro (⟨hkeeps, hlater⟩ | ⟨before, call', after, rfl, hkeeps, hlater⟩)
    · exact ⟨[], call, calls, rfl, hkeeps, hlater⟩
    · exact ⟨call :: before, call', after, rfl, hkeeps, hlater⟩

/-- **What is unconfirmed** was there and was not brought, or it was kept and not brought since. -/
theorem unconfirmed_run_iff : ∀ (calls : List StoreCall) (s : Store),
    (calls.foldl serve s).chain.unconfirmed.contains txid = true ↔
      s.chain.unconfirmed.contains txid = true ∧ txid ∉ txidsOf (s.history calls).flatten ∨ s.KeptSince calls txid
  | [], s => by
    have hnone : ¬ s.KeptSince [] txid := fun ⟨before, _, _, h, _⟩ => by cases before <;> cases h
    rw [or_iff_left hnone, and_iff_left]
    · rfl
    · exact List.not_mem_nil
  | call :: calls, s => by
    rw [List.foldl_cons, unconfirmed_run_iff calls, unconfirmed_serve_iff, keptSince_cons_iff, history_cons,
      List.flatten_append, txidsOf_append, List.mem_append, not_or, ← or_assoc, or_and_right, and_assoc]

/-- **When a transaction is in both pools**: exactly if it was submitted, and kept, while it was confirmed, if it is
confirmed still, and if nothing has brought it since. -/
theorem confirmed_and_unconfirmed_iff (genesis : Header) (calls : List StoreCall) (txid : Digest) :
    let start := ofChain (.ofGenesis genesis)
    let c := (calls.foldl serve start).chain
    c.confirmed.contains txid = true ∧ c.unconfirmed.contains txid = true ↔
      ∃ before call after, calls = before ++ call :: after ∧
        (before.foldl serve start).chain.confirmed.contains txid = true ∧
        (before.foldl serve start).Keeps call txid ∧ c.confirmed.contains txid = true ∧
        txid ∉ txidsOf (((before.foldl serve start).serve call).history after).flatten := by
  intro start c
  have hpool : c.unconfirmed.contains txid = true ↔ start.KeptSince calls txid :=
    (unconfirmed_run_iff calls start).trans (or_iff_right fun h => Bool.false_ne_true h.1)
  rw [hpool]
  constructor
  · rintro ⟨hconfirmed, before, call, after, rfl, hkeeps, hlater⟩
    refine ⟨before, call, after, rfl, ?_, hkeeps, hconfirmed, hlater⟩
    change (((before ++ call :: after).foldl serve start).chain.confirmed.contains txid) = true at hconfirmed
    rw [List.foldl_append, List.foldl_cons] at hconfirmed
    have hafter := confirmed_of_run after hconfirmed hlater
    obtain ⟨tx, rfl, -, -⟩ := hkeeps
    exact confirmed_of_serve hafter List.not_mem_nil
  · rintro ⟨before, call, after, hcalls, -, hkeeps, hconfirmed, hlater⟩
    exact ⟨hconfirmed, before, call, after, hcalls, hkeeps, hlater⟩

end Pools

end Store

open Sample in
/-- A payment to a watched address is submitted once more after a block has brought it. -/
example :
    let income : Transaction := ⟨1, [], [⟨5, [170]⟩], 0⟩
    let calls : List StoreCall := [.watch [170], .commit [⟨child genesisHash 4, [income]⟩], .submit income]
    let c := (calls.foldl Store.serve (.ofChain (.ofGenesis genesis))).chain
    c.confirmed.contains income.txid = true ∧ c.unconfirmed.contains income.txid = true := by
  decide +kernel

end LightClient
