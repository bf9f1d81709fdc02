import LightClient.Proofs.Chain.WellFormed
/-!
# What a listener makes of the events

A listener that begins with the genesis header and takes every event in order has a copy of the main chain: each header
that is rolled back is the last one of the copy, and each one that is connected stands on the last one, at the next
height (`Store.follow_events`). A call that fails leaves no trace, neither in the chain nor among the events.
-/
namespace LightClient

/-- A copy of the main chain after one more event. None if the event does not fit the copy. -/
def ChainEvent.follow (line : List Header) : ChainEvent → Option (List Header)
  | .stored _ _ => some line
  | .connected header =>
    if line.getLast?.any fun top => header.previous = top.hash && header.height = top.height + 1 then
      some (line ++ [header])
    else none
  | .rolledBack header => if line.getLast? = some header then some line.dropLast else none

/-- What a store can be asked to do. -/
inductive StoreCall where
  | commit (batch : List ConfirmedBlock)
  | submit (tx : Transaction)
  | watch (address : Bytes)
  | close

def Store.serve (s : Store) : StoreCall → Store
  | .commit batch => (s.commit batch).1
  | .submit tx => (s.commitUnconfirmed tx).1
  | .watch address => { s with chain := s.chain.watch address }
  | .close => { s with chain := s.chain.close }

namespace Chain

/-- The headers of the main chain, genesis first. -/
def line (c : Chain) : List Header := c.main.filterMap c.headers.get?

theorem SameBlocks.line {c c' : Chain} (h : SameBlocks c c') : c'.line = c.line := by
  rw [Chain.line, h.main, h.headers, Chain.line]

namespace WellFormed

variable {c : Chain} (h : c.WellFormed)
include h

theorem exists_header {hash : Digest} (hmem : hash ∈ c.main) : ∃ header, c.headers.get? hash = some header :=
  Table.contains_eq_true.1 ((h.knows_iff hash).2 hmem)

theorem hashes_line : c.line.map Header.hash = c.main := by
  have hhash (hash : Digest) (hmem : hash ∈ c.main) : (c.headers.get? hash).map Header.hash = some hash := by
    obtain ⟨header, hget⟩ := h.exists_header hmem
    rw [hget, Option.map_some, h.header_hash hget]
  rw [line, List.map_filterMap, List.filterMap_congr hhash, List.filterMap_some]

/-- The last header of the line stands at the end of the main chain, at its height. -/
theorem getLast?_line {tip : Digest} (htip : c.main.getLast? = some tip) :
    ∃ top, c.line.getLast? = some top ∧ top.hash = tip ∧ top.height + 1 = c.main.length := by
  obtain ⟨below, hmain⟩ := List.getLast?_eq_some_iff.1 htip
  have hmem : tip ∈ c.main := by rw [hmain]; simp
  obtain ⟨top, hget⟩ := h.exists_header hmem
  have hheight := h.header_height (i := below.length) (by rw [hmain]; simp) hget
  refine ⟨top, ?_, h.header_hash hget, ?_⟩
  · rw [line, hmain, List.filterMap_append, List.filterMap_cons_some hget]
    simp
  · rw [hmain, List.length_append, List.length_singleton, hheight]

end WellFormed

/-! ## Rolling back -/

theorem events_forgetAll : ∀ (hashes : List Digest) (c : Chain), hashes.Nodup →
    collected forget c hashes = (hashes.filterMap c.headers.get?).map .rolledBack
  | [], _, _ => rfl
  | hash :: hashes, c, hnodup => by
    obtain ⟨hnotin, hnodup⟩ := List.nodup_cons.1 hnodup
    have hrest : hashes.filterMap (c.forget hash).1.headers.get? = hashes.filterMap c.headers.get? := by
      refine List.filterMap_congr fun x hx => ?_
      have hne : x ≠ hash := fun heq => hnotin (heq ▸ hx)
      rw [show (c.forget hash).1.headers = c.headers.erase hash from rfl, Table.get?_erase, if_neg hne]
    rw [collected, events_forgetAll hashes _ hnodup, hrest, List.filterMap_cons]
    cases hget : c.headers.get? hash with
    | none => simp [forget, hget]
    | some header => simp [forget, hget]

/-- What lies above the cut is taken back from the tip down. -/
theorem events_rollBack {c : Chain} (h : c.WellFormed) (kept : Nat) :
    (c.rollBack kept).2 = ((c.main.drop kept).filterMap c.headers.get?).reverse.map .rolledBack := by
  have hnodup : (c.main.drop kept).reverse.Nodup := List.nodup_reverse.2 (h.nodup_main.sublist (List.drop_sublist _ _))
  rw [rollBack_eq]
  change collected forget _ _ = _
  rw [events_forgetAll _ _ hnodup, List.filterMap_reverse]

theorem line_rollBack {c : Chain} (h : c.WellFormed) (kept : Nat) :
    (c.rollBack kept).1.line = (c.main.take kept).filterMap c.headers.get? := by
  rw [line, main_rollBack]
  refine List.filterMap_congr fun hash hmem => ?_
  rw [headers_rollBack, if_neg ((mem_take_iff h.nodup_main _ _).1 hmem).2]

theorem follow_rolledBack (line : List Header) : ∀ (undone : List Header),
    (undone.map ChainEvent.rolledBack).foldlM ChainEvent.follow (line ++ undone.reverse) = some line
  | [] => by simp
  | header :: undone => by
    have hlast : (line ++ (header :: undone).reverse).getLast? = some header := by simp
    have hfront : (line ++ (header :: undone).reverse).dropLast = line ++ undone.reverse := by
      rw [List.reverse_cons, ← List.append_assoc, List.dropLast_concat]
    rw [List.map_cons, List.foldlM_cons, ChainEvent.follow, if_pos hlast, hfront]
    exact follow_rolledBack line undone

theorem follow_rollBack {c : Chain} (h : c.WellFormed) (kept : Nat) :
    (c.rollBack kept).2.foldlM ChainEvent.follow c.line = some (c.rollBack kept).1.line := by
  have hsplit : c.line = (c.rollBack kept).1.line ++ ((c.main.drop kept).filterMap c.headers.get?).reverse.reverse := by
    rw [line_rollBack h, List.reverse_reverse, ← List.filterMap_append, List.take_append_drop, line]
  rw [hsplit, events_rollBack h]
  exact follow_rolledBack _ _

/-! ## Connecting -/

theorem follow_stored (line : List Header) (height : Option Nat) : ∀ (txs : List Transaction),
    (txs.map (ChainEvent.stored · height)).foldlM ChainEvent.follow line = some line
  | [] => rfl
  | _ :: txs => follow_stored line height txs

theorem line_connect {c : Chain} (h : c.WellFormed) {b : ConfirmedBlock} (hnew : c.knows b.block.hash = false) :
    (c.connect b).1.line = c.line ++ [{ b.block.header with height := c.main.length }] := by
  have hnotin (hash : Digest) (hmem : hash ∈ c.main) : hash ≠ b.block.hash := by
    rintro rfl
    rw [(h.knows_iff _).2 hmem] at hnew
    cases hnew
  have hbelow : c.main.filterMap (c.connect b).1.headers.get? = c.line := by
    refine List.filterMap_congr fun hash hmem => ?_
    rw [headers_connect, if_neg (hnotin hash hmem)]
  have htop : (c.connect b).1.headers.get? b.block.hash = some { b.block.header with height := c.main.length } := by
    rw [headers_connect, if_pos rfl]
  rw [line, main_connect, List.filterMap_append, hbelow, List.filterMap_cons_some htop, List.filterMap_nil]

/-- **A block on top of the tip** is reported after its transactions, and it fits the copy. -/
theorem follow_connect {c : Chain} (h : c.WellFormed) {b : ConfirmedBlock} (hnew : c.knows b.block.hash = false)
    (hparent : c.main.getLast? = some b.block.previous) :
    (c.connect b).2.foldlM ChainEvent.follow c.line = some (c.connect b).1.line := by
  obtain ⟨top, hlast, hhash, hheight⟩ := h.getLast?_line hparent
  have hfits : (c.line.getLast?.any fun top => decide (b.block.header.previous = top.hash) &&
      decide (c.main.length = top.height + 1)) = true := by
    rw [hlast, Option.any_some, hhash, hheight]
    simp [FilteredBlock.previous]
  rw [connect, List.foldlM_append, follow_stored, Option.bind_eq_bind, Option.bind_some, List.foldlM_cons,
    ChainEvent.follow, if_pos hfits]
  exact congrArg some (line_connect h hnew).symm

theorem follow_connectAll : ∀ (batch : List ConfirmedBlock) (c : Chain), Fits c batch →
    (collected connect c batch).foldlM ChainEvent.follow c.line =
      some (batch.foldl (fun c b => (c.connect b).1) c).line
  | [], _, _ => rfl
  | b :: batch, c, hfits => by
    have hb := follow_connect hfits.wellFormed (hfits.unknown b (by simp)) (hfits.parent b (by simp))
    rw [collected, List.foldlM_append, hb]
    exact follow_connectAll batch (c.connect b).1 hfits.connect

/-- **The events of a commit lead a copy from the old main chain to the new one.** -/
theorem follow_commit {c c' : Chain} {batch : List ConfirmedBlock} {events : List ChainEvent} (h : c.WellFormed)
    (hnodup : (batch.map fun b => b.block.hash).Nodup) (hcommit : c.commit batch = .ok (c', events)) :
    events.foldlM ChainEvent.follow c.line = some c'.line := by
  obtain ⟨kept, -, hfits, hresult⟩ := Fits.of_commit h hnodup hcommit
  simp only [reorganise, connectAll_eq, Prod.mk.injEq] at hresult
  obtain ⟨rfl, rfl⟩ := hresult
  rw [List.foldlM_append, follow_rollBack h]
  exact follow_connectAll batch _ hfits

end Chain

/-! ## Histories of a store -/

namespace Store

/-- The store writes whenever it is asked to, its chain is well formed, and the events so far lead a copy from the given
line to the main chain. -/
structure Followed (start : List Header) (s : Store) : Prop where
  disk : s.outages = 0
  chain : s.chain.WellFormed
  events : s.events.foldlM ChainEvent.follow start = some s.chain.line

theorem commit_of_ok {s : Store} (hdisk : s.outages = 0) {batch : List ConfirmedBlock} {c : Chain}
    {events : List ChainEvent} (hcommit : s.chain.commit batch = .ok (c, events)) :
    s.commit batch = ({ s with chain := c, events := s.events ++ events }, .ok ()) := by
  simp only [Store.commit, hdisk, hcommit]

theorem commit_of_error {s : Store} (hdisk : s.outages = 0) {batch : List ConfirmedBlock} {cause : ChainError}
    (hcommit : s.chain.commit batch = .error cause) : s.commit batch = (s, .error cause) := by
  simp only [Store.commit, hdisk, hcommit]

namespace Followed

variable {start : List Header} {s : Store}

theorem ofGenesis (genesis : Header) : (Store.ofChain (.ofGenesis genesis)).Followed [{ genesis with height := 0 }] where
  disk := rfl
  chain := .ofGenesis genesis
  events := by
    have hget : (Chain.ofGenesis genesis).headers.get? genesis.hash = some { genesis with height := 0 } := by
      rw [Chain.ofGenesis, Table.get?_insert, if_pos rfl]
    have hline : [genesis.hash].filterMap (Chain.ofGenesis genesis).headers.get? = [{ genesis with height := 0 }] := by
      rw [List.filterMap_cons_some hget, List.filterMap_nil]
    exact congrArg some hline.symm

theorem commit (h : s.Followed start) {batch : List ConfirmedBlock}
    (hnodup : (batch.map fun b => b.block.hash).Nodup) : (s.commit batch).1.Followed start := by
  cases hcommit : s.chain.commit batch with
  | error cause =>
    rw [commit_of_error h.disk hcommit]
    exact h
  | ok result =>
    rw [commit_of_ok h.disk hcommit]
    refine ⟨h.disk, h.chain.commit hnodup hcommit, ?_⟩
    rw [List.foldlM_append, h.events]
    exact Chain.follow_commit h.chain hnodup hcommit

/-- Other calls leave the blocks alone, and their events pass a copy by. -/
theorem congr (h : s.Followed start) {c : Chain} (hsame : s.chain.SameBlocks c) {txs : List Transaction} :
    ({ s with chain := c, events := s.events ++ txs.map (.stored · none) } : Store).Followed start := by
  refine ⟨h.disk, h.chain.congr hsame, ?_⟩
  rw [List.foldlM_append, h.events, hsame.line]
  exact Chain.follow_stored _ _ txs

theorem submit (h : s.Followed start) (tx : Transaction) : (s.commitUnconfirmed tx).1.Followed start := by
  unfold Store.commitUnconfirmed
  split
  · rename_i spurious c events hcommit
    have hsame := Chain.SameBlocks.commitUnconfirmed hcommit
    have hevents : ∃ txs : List Transaction, events = txs.map (.stored · none) := by
      unfold Chain.commitUnconfirmed at hcommit
      split at hcommit
      · cases hcommit
      split at hcommit
      · cases hcommit
        exact ⟨[tx], rfl⟩
      · cases hcommit
        exact ⟨[], rfl⟩
    obtain ⟨txs, rfl⟩ := hevents
    exact h.congr hsame
  · exact h

theorem serve (h : s.Followed start) {call : StoreCall}
    (hdistinct : ∀ batch, call = .commit batch → (batch.map fun b => b.block.hash).Nodup) :
    (s.serve call).Followed start := by
  cases call with
  | commit batch => exact h.commit (hdistinct batch rfl)
  | submit tx => exact h.submit tx
  | watch address => exact ⟨h.disk, h.chain.congr ⟨rfl, rfl, rfl, rfl⟩, h.events⟩
  | close => exact ⟨h.disk, h.chain.congr ⟨rfl, rfl, rfl, rfl⟩, h.events⟩

theorem run : ∀ (calls : List StoreCall) {s : Store}, s.Followed start →
    (∀ batch, .commit batch ∈ calls → (batch.map fun b => b.block.hash).Nodup) →
      (calls.foldl Store.serve s).Followed start
  | [], _, h, _ => h
  | _ :: calls, _, h, hdistinct =>
    run calls (h.serve fun batch hcall => hdistinct batch (hcall ▸ List.mem_cons_self))
      fun batch hmem => hdistinct batch (List.mem_cons_of_mem _ hmem)

end Followed

/-- **A listener can rebuild the chain, and a failed commit is invisible.** After any history of a store over a new
chain, the events so far lead from the genesis header to the main chain, and the next commit either changes nothing at
all or leaves the main chain up to the batch's parent, followed by the batch. -/
theorem follow_events (genesis : Header) {calls : List StoreCall}
    (hdistinct : ∀ batch, .commit batch ∈ calls → (batch.map fun b => b.block.hash).Nodup) :
    let s := calls.foldl Store.serve (.ofChain (.ofGenesis genesis))
    s.events.foldlM ChainEvent.follow [{ genesis with height := 0 }] = some s.chain.line ∧
    s.chain.line.map Header.hash = s.chain.main ∧
    ∀ batch,
      (∃ cause, s.commit batch = (s, .error cause)) ∨
      (s.commit batch).2 = .ok () ∧ ∃ first ∈ batch.head?, ∃ below above,
        s.chain.main = below ++ first.block.previous :: above ∧
        (s.commit batch).1.chain.main = below ++ first.block.previous :: batch.map fun b => b.block.hash := by
  intro s
  have h : s.Followed [{ genesis with height := 0 }] := .run calls (.ofGenesis genesis) hdistinct
  refine ⟨h.events, h.chain.hashes_line, fun batch => ?_⟩
  cases hcommit : s.chain.commit batch with
  | error cause => exact Or.inl ⟨cause, commit_of_error h.disk hcommit⟩
  | ok result =>
    obtain ⟨-, first, rest, rfl, -, -, below, above, hmain, -, hresult⟩ := Chain.commit_eq_ok_iff.1 hcommit
    rw [commit_of_ok h.disk hcommit]
    refine Or.inr ⟨rfl, first, rfl, below, above, hmain, ?_⟩
    rw [← show (s.chain.reorganise (below.length + 1) (first :: rest)).1 = result.1 by rw [hresult],
      Chain.main_reorganise, hmain, List.take_append, List.take_of_length_le (by omega)]
    simp

end Store

namespace Sample

/-- A block with the payment is taken, a block with no known parent is refused, and a fork takes the place of the
first. -/
def reorganisation : List StoreCall :=
  [.commit [⟨paying, [payment]⟩], .commit [⟨child .zero 4, []⟩], .commit [⟨child genesisHash 4, []⟩]]

def reorganised : Store := reorganisation.foldl Store.serve (.ofChain (.ofGenesis genesis))

theorem events_reorganised :
    reorganised.events = [.stored payment (some 1), .connected { paying.header with height := 1 },
      .rolledBack { paying.header with height := 1 }, .connected { (child genesisHash 4).header with height := 1 }] := by
  decide +kernel

end Sample

open Sample in
theorem Store.follow_reorganised :
    (∀ batch, .commit batch ∈ reorganisation → (batch.map fun b => b.block.hash).Nodup) ∧
      reorganised.events.length = 4 ∧
      reorganised.events.foldlM ChainEvent.follow [genesis] = some reorganised.chain.line := by
  have hdistinct (batch : List ConfirmedBlock) (hmem : .commit batch ∈ reorganisation) :
      (batch.map fun b => b.block.hash).Nodup := by
    simp only [reorganisation, List.mem_cons, StoreCall.commit.injEq, List.not_mem_nil, or_false] at hmem
    obtain rfl | rfl | rfl := hmem
    all_goals exact List.nodup_singleton _
  exact ⟨hdistinct, by rw [events_reorganised]; rfl, (Store.follow_events genesis hdistinct).1⟩

end LightClient
