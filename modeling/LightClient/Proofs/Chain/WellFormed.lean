import Mathlib.Data.List.Nodup
import LightClient.Proofs.Chain.Commit
/-!
# The shape of a chain

In a well-formed chain the main chain lists, without repeats and from the genesis block up, exactly the blocks whose
headers are stored; each header stands at its height, names the block below as its parent, and every block but the first
has its record of transactions. Every chain that can come about is well formed (`Reachable.wellFormed`).

A commit is a roll-back and then one `connect` for each block, and `commit_induction` takes a property along.
-/
namespace LightClient
namespace Chain

structure WellFormed (c : Chain) : Prop where
  main_ne_nil : c.main ≠ []
  nodup_main : c.main.Nodup
  knows_iff (hash : Digest) : c.knows hash = true ↔ hash ∈ c.main
  header_hash {hash : Digest} {header : Header} : c.headers.get? hash = some header → header.hash = hash
  header_height {i : Nat} {hash : Digest} {header : Header} :
    c.main[i]? = some hash → c.headers.get? hash = some header → header.height = i
  linked : c.main.IsChain fun a b => ∀ header, c.headers.get? b = some header → header.previous = a
  recorded_iff (hash : Digest) : c.blockTxids.contains hash = true ↔ hash ∈ c.main.tail

/-- Two chains with the same blocks; unconfirmed transactions and watched addresses may differ. -/
structure SameBlocks (c c' : Chain) : Prop where
  main : c'.main = c.main
  headers : c'.headers = c.headers
  blockTxids : c'.blockTxids = c.blockTxids
  confirmed : c'.confirmed = c.confirmed

namespace SameBlocks

theorem refl (c : Chain) : SameBlocks c c := ⟨rfl, rfl, rfl, rfl⟩

theorem knows {c c' : Chain} (h : SameBlocks c c') (hash : Digest) : c'.knows hash = c.knows hash := by
  rw [Chain.knows, h.headers, Chain.knows]

theorem tip {c c' : Chain} (h : SameBlocks c c') : c'.tip = c.tip := by
  rw [Chain.tip, h.main, h.headers, Chain.tip]

theorem commitUnconfirmed {c c' : Chain} {tx : Transaction} {spurious : Bool} {events : List ChainEvent}
    (h : c.commitUnconfirmed tx = .ok (spurious, c', events)) : SameBlocks c c' := by
  unfold Chain.commitUnconfirmed at h
  split at h
  · cases h
  split at h
  · cases h
    exact ⟨rfl, rfl, rfl, rfl⟩
  · cases h
    exact refl c

/-- A batch is refused for the blocks of the chain, or because the chain is closed. -/
theorem refuses {c c' : Chain} (h : SameBlocks c c') (hclosed : c'.isClosed = c.isClosed) {batch : List ConfirmedBlock}
    (hrefused : ∃ cause, c.commit batch = .error cause) : ∃ cause, c'.commit batch = .error cause := by
  cases hcommit : c'.commit batch with
  | error cause => exact ⟨cause, rfl⟩
  | ok result =>
    obtain ⟨hopen, first, rest, hbatch, hlinked, hnew, below, above, hmain, habove, -⟩ := commit_eq_ok_iff.1 hcommit
    have hunknown (b : ConfirmedBlock) (hb : b ∈ batch) : c.knows b.block.hash = false := by
      rw [← h.knows]
      exact hnew b hb
    have hcommit' := commit_eq_ok_iff.2
      ⟨hclosed.symm.trans hopen, first, rest, hbatch, hlinked, hunknown, below, above, h.main.symm.trans hmain, habove, rfl⟩
    obtain ⟨cause, hcause⟩ := hrefused
    cases hcommit'.symm.trans hcause

end SameBlocks

theorem mem_take_iff {l : List Digest} (h : l.Nodup) (k : Nat) (x : Digest) :
    x ∈ l.take k ↔ x ∈ l ∧ x ∉ l.drop k := by
  have hsplit := List.take_append_drop k l
  constructor
  · intro hx
    refine ⟨List.mem_of_mem_take hx, fun hd => ?_⟩
    rw [← hsplit, List.nodup_append] at h
    exact h.2.2 x hx x hd rfl
  · rintro ⟨hx, hd⟩
    rw [← hsplit, List.mem_append] at hx
    exact hx.resolve_right hd

/-- The same but for the first one, which is never dropped. -/
theorem mem_tail_take {l : List Digest} (h : l.Nodup) {k : Nat} (hk : 0 < k) (x : Digest) :
    x ∈ (l.take k).tail ↔ x ∈ l.tail ∧ x ∉ l.drop k := by
  obtain ⟨n, rfl⟩ : ∃ n, k = n + 1 := ⟨k - 1, by omega⟩
  cases l with
  | nil => simp
  | cons a l => exact mem_take_iff (List.nodup_cons.1 h).2 n x

theorem getElem?_concat_cases {l : List Digest} {y x : Digest} {i : Nat} (h : (l ++ [y])[i]? = some x) :
    l[i]? = some x ∨ i = l.length ∧ x = y := by
  rw [List.getElem?_append] at h
  split at h
  · exact Or.inl h
  · rw [List.getElem?_singleton] at h
    split at h
    · exact Or.inr ⟨by omega, (Option.some.inj h).symm⟩
    · cases h

namespace WellFormed

theorem ofGenesis (header : Header) : (Chain.ofGenesis header).WellFormed where
  main_ne_nil := List.cons_ne_nil _ _
  nodup_main := List.nodup_singleton _
  knows_iff hash := by simp [Chain.ofGenesis, knows, Table.contains_insert]
  header_hash {hash h} hget := by
    simp only [Chain.ofGenesis, Table.get?_insert, Table.get?_empty] at hget
    split at hget
    · rename_i hk
      cases hget
      exact hk.symm
    · cases hget
  header_height {i hash h} hi hget := by
    simp only [Chain.ofGenesis, Table.get?_insert, Table.get?_empty] at hi hget
    split at hget
    · cases hget
      cases i with
      | zero => rfl
      | succ i => simp at hi
    · cases hget
  linked := List.isChain_singleton _
  recorded_iff hash := by simp [Chain.ofGenesis]

theorem congr {c c' : Chain} (h : c.WellFormed) (hsame : SameBlocks c c') : c'.WellFormed := by
  cases c' with
  | mk headers main blockTxids confirmed unconfirmed watched isClosed =>
  obtain ⟨hmain, hheaders, hrecords, -⟩ := hsame
  simp only at hmain hheaders hrecords
  subst hmain hheaders hrecords
  exact ⟨h.main_ne_nil, h.nodup_main, h.knows_iff, h.header_hash, h.header_height, h.linked, h.recorded_iff⟩

theorem knows_tip {c : Chain} (h : c.WellFormed) : c.knows c.tip.hash = true := by
  have hlast := List.getLast?_eq_some_getLast h.main_ne_nil
  have hknown := (h.knows_iff _).2 (List.getLast_mem h.main_ne_nil)
  obtain ⟨header, hget⟩ := Table.contains_eq_true.1 hknown
  rw [tip, hlast, Option.bind_some, hget, Option.getD_some, h.header_hash hget]
  exact hknown

theorem ne_tip {c : Chain} (h : c.WellFormed) {hash : Digest} (hunknown : c.knows hash = false) :
    hash ≠ c.tip.hash := by
  rintro rfl
  rw [h.knows_tip] at hunknown
  cases hunknown

theorem rollBack {c : Chain} (h : c.WellFormed) (kept : Nat) (hkept : 0 < kept) : (c.rollBack kept).1.WellFormed := by
  have hheader {hash : Digest} {header : Header} (hget : (c.rollBack kept).1.headers.get? hash = some header) :
      c.headers.get? hash = some header := by
    rw [headers_rollBack] at hget
    split at hget
    · cases hget
    · exact hget
  constructor
  case main_ne_nil =>
    rw [main_rollBack, ne_eq, List.take_eq_nil_iff, not_or]
    exact ⟨by omega, h.main_ne_nil⟩
  case nodup_main =>
    rw [main_rollBack]
    exact h.nodup_main.sublist (List.take_sublist _ _)
  case knows_iff =>
    intro hash
    rw [main_rollBack, mem_take_iff h.nodup_main, ← h.knows_iff, knows, Table.contains, headers_rollBack]
    by_cases hd : hash ∈ c.main.drop kept
    · simp [hd]
    · simp [hd, knows, Table.contains]
  case header_hash => exact fun hget => h.header_hash (hheader hget)
  case header_height =>
    intro i hash header hi hget
    rw [main_rollBack, List.getElem?_take] at hi
    split at hi
    · exact h.header_height hi (hheader hget)
    · cases hi
  case linked =>
    rw [main_rollBack]
    exact (h.linked.imp fun a b hab header hget => hab header (hheader hget)).take kept
  case recorded_iff =>
    intro hash
    rw [main_rollBack, mem_tail_take h.nodup_main hkept, ← h.recorded_iff, Table.contains, blockTxids_rollBack]
    by_cases hd : hash ∈ c.main.drop kept
    · simp [hd]
    · simp [hd, Table.contains]

theorem connect {c : Chain} (h : c.WellFormed) {b : ConfirmedBlock} (hnew : c.knows b.block.hash = false)
    (hparent : c.main.getLast? = some b.block.previous) : (c.connect b).1.WellFormed := by
  have hnotin : b.block.hash ∉ c.main := fun hmem => by
    rw [(h.knows_iff _).2 hmem] at hnew
    cases hnew
  constructor
  case main_ne_nil =>
    rw [main_connect]
    simp
  case nodup_main =>
    rw [main_connect, List.nodup_append]
    refine ⟨h.nodup_main, List.nodup_singleton _, ?_⟩
    rintro x hx y hy rfl
    rw [List.mem_singleton.1 hy] at hx
    exact hnotin hx
  case knows_iff =>
    intro hash
    rw [main_connect, List.mem_append, List.mem_singleton, ← h.knows_iff, knows, Table.contains, headers_connect]
    by_cases hx : hash = b.block.hash
    · simp [hx]
    · simp [hx, knows, Table.contains]
  case header_hash =>
    intro hash header hget
    rw [headers_connect] at hget
    split at hget
    · rename_i hk
      cases hget
      exact hk.symm
    · exact h.header_hash hget
  case header_height =>
    intro i hash header hi hget
    rw [main_connect] at hi
    rw [headers_connect] at hget
    obtain hi | ⟨rfl, rfl⟩ := getElem?_concat_cases hi
    · rw [if_neg (by rintro rfl; exact hnotin (List.mem_of_getElem? hi))] at hget
      exact h.header_height hi hget
    · rw [if_pos rfl] at hget
      cases hget
      rfl
  case linked =>
    rw [main_connect, List.isChain_append]
    refine ⟨?_, List.isChain_singleton _, ?_⟩
    · refine List.IsChain.imp_of_mem_imp (fun a x _ hx hax header hget => ?_) h.linked
      rw [headers_connect, if_neg (by rintro rfl; exact hnotin hx)] at hget
      exact hax header hget
    · intro a ha x hx header hget
      rw [List.head?_cons, Option.mem_some_iff] at hx
      rw [hparent, Option.mem_some_iff] at ha
      rw [headers_connect, if_pos hx.symm] at hget
      cases hget
      exact ha.symm ▸ rfl
  case recorded_iff =>
    intro hash
    rw [main_connect, List.tail_append_of_ne_nil h.main_ne_nil, List.mem_append, List.mem_singleton,
      ← h.recorded_iff, Table.contains, blockTxids_connect]
    by_cases hx : hash = b.block.hash
    · simp [hx]
    · simp [hx, Table.contains]

end WellFormed

/-! ## Through a commit -/

/-- A batch can be put on top of the tip, block by block. -/
structure Fits (c : Chain) (batch : List ConfirmedBlock) : Prop where
  wellFormed : c.WellFormed
  linked : Linked batch
  parent : ∀ b ∈ batch.head?, c.main.getLast? = some b.block.previous
  nodup : (batch.map fun b => b.block.hash).Nodup
  unknown : ∀ b ∈ batch, c.knows b.block.hash = false

theorem Fits.connect {c : Chain} {b : ConfirmedBlock} {batch : List ConfirmedBlock} (h : Fits c (b :: batch)) :
    Fits (c.connect b).1 batch := by
  obtain ⟨hnotin, hnodup⟩ := List.nodup_cons.1 (List.map_cons ▸ h.nodup)
  refine ⟨h.wellFormed.connect (h.unknown b (by simp)) (h.parent b (by simp)), h.linked.tail, ?_, hnodup, ?_⟩
  · intro b' hb'
    rw [main_connect, List.getLast?_append, List.getLast?_singleton, Option.some_or, Option.some.injEq]
    exact (h.linked.rel_head? hb').symm
  · intro b' hb'
    have hne : b'.block.hash ≠ b.block.hash := fun heq => hnotin (heq ▸ List.mem_map_of_mem hb')
    rw [knows, Table.contains, headers_connect, if_neg hne]
    exact h.unknown b' (List.mem_cons_of_mem _ hb')

/-- What a batch is put on that is taken: the main chain up to its parent. -/
theorem Fits.of_commit {c c' : Chain} {batch : List ConfirmedBlock} {events : List ChainEvent} (hwf : c.WellFormed)
    (hnodup : (batch.map fun b => b.block.hash).Nodup) (hcommit : c.commit batch = .ok (c', events)) :
    ∃ kept, 0 < kept ∧ Fits (c.rollBack kept).1 batch ∧ c.reorganise kept batch = (c', events) := by
  obtain ⟨-, first, rest, hbatch, hlinked, hnew, below, above, hmain, -, hresult⟩ := commit_eq_ok_iff.1 hcommit
  refine ⟨below.length + 1, by omega, ⟨hwf.rollBack _ (by omega), hlinked, ?_, hnodup, ?_⟩, hresult⟩
  · intro b hb
    rw [hbatch, List.head?_cons, Option.mem_some_iff] at hb
    subst hb
    rw [main_rollBack, hmain, List.take_append]
    simp
  · intro b hb
    have := hnew b hb
    rw [knows, Table.contains] at this ⊢
    rw [headers_rollBack]
    split
    · rfl
    · exact this

theorem rollBack_length (c : Chain) : c.rollBack c.main.length = (c, []) := by
  rw [rollBack_eq, List.take_length, List.drop_length]
  rfl

/-- **A batch on top of the tip** is put there, and nothing is rolled back. -/
theorem Fits.commit {c : Chain} {b : ConfirmedBlock} {batch : List ConfirmedBlock} (h : Fits c (b :: batch))
    (hopen : c.isClosed = false) : c.commit (b :: batch) = .ok (c.connectAll (b :: batch)) := by
  have hmain : c.main.dropLast ++ [b.block.previous] = c.main := List.dropLast_append_getLast? _ (h.parent b (by simp))
  have hlength : c.main.dropLast.length + 1 = c.main.length := by
    simpa using congrArg List.length hmain
  refine commit_eq_ok_iff.2 ⟨hopen, b, batch, rfl, h.linked, h.unknown, c.main.dropLast, [], hmain.symm, by simp, ?_⟩
  rw [hlength, reorganise, rollBack_length]
  rfl

/-- A property is kept by a batch if it is kept by each block put on top of the tip. -/
theorem connectAll_induction {P : Chain → Prop} :
    ∀ (batch : List ConfirmedBlock) (c : Chain), Fits c batch → P c →
      (∀ d b, b ∈ batch → d.WellFormed → d.knows b.block.hash = false → d.main.getLast? = some b.block.previous →
        P d → P (d.connect b).1) →
      (batch.foldl (fun c b => (c.connect b).1) c).WellFormed ∧ P (batch.foldl (fun c b => (c.connect b).1) c)
  | [], _, hfits, hP, _ => ⟨hfits.wellFormed, hP⟩
  | b :: batch, c, hfits, hP, hconnect => by
    have hb := hconnect c b (by simp) hfits.wellFormed (hfits.unknown b (by simp)) (hfits.parent b (by simp)) hP
    exact connectAll_induction batch (c.connect b).1 hfits.connect hb
      (fun d b' hb' => hconnect d b' (List.mem_cons_of_mem _ hb'))

/-- **What a commit keeps**: a property that rolling back keeps and that each block of the batch keeps. -/
theorem commit_induction {P : Chain → Prop} {c c' : Chain} {batch : List ConfirmedBlock} {events : List ChainEvent}
    (hwf : c.WellFormed) (hnodup : (batch.map fun b => b.block.hash).Nodup)
    (hcommit : c.commit batch = .ok (c', events))
    (hback : ∀ kept, 0 < kept → P (c.rollBack kept).1)
    (hconnect : ∀ d b, b ∈ batch → d.WellFormed → d.knows b.block.hash = false →
      d.main.getLast? = some b.block.previous → P d → P (d.connect b).1) :
    c'.WellFormed ∧ P c' := by
  obtain ⟨kept, hkept, hfits, hresult⟩ := Fits.of_commit hwf hnodup hcommit
  have hc' : c' = (c.reorganise kept batch).1 := by rw [hresult]
  rw [hc', reorganise_fst]
  exact connectAll_induction batch _ hfits (hback _ hkept) hconnect

theorem WellFormed.commit {c c' : Chain} {batch : List ConfirmedBlock} {events : List ChainEvent} (h : c.WellFormed)
    (hnodup : (batch.map fun b => b.block.hash).Nodup) (hcommit : c.commit batch = .ok (c', events)) :
    c'.WellFormed :=
  (commit_induction (P := fun _ => True) h hnodup hcommit (fun _ _ => trivial) (fun _ _ _ _ _ _ _ => trivial)).1

/-- **Every chain that can come about is well formed.** -/
theorem Reachable.wellFormed {c : Chain} (h : c.Reachable) : c.WellFormed := by
  induction h with
  | genesis header => exact .ofGenesis header
  | commit _ hnodup hcommit ih => exact ih.commit hnodup hcommit
  | unconfirmed _ htx ih => exact ih.congr (.commitUnconfirmed htx)
  | watch address _ ih => exact ih.congr ⟨rfl, rfl, rfl, rfl⟩
  | close _ ih => exact ih.congr ⟨rfl, rfl, rfl, rfl⟩

end Chain

/-! ## The store -/

namespace Store

theorem commit_eq_ok {s s' : Store} {batch : List ConfirmedBlock} (h : s.commit batch = (s', .ok ())) :
    ∃ events, s.chain.commit batch = .ok (s'.chain, events) := by
  unfold Store.commit at h
  split at h
  · cases h
  split at h
  · rename_i chain events hcommit
    cases h
    exact ⟨events, hcommit⟩
  · cases h

theorem outages_of_commit {s s' : Store} {batch : List ConfirmedBlock} (h : s.commit batch = (s', .ok ())) :
    s.outages = 0 := by
  unfold Store.commit at h
  split at h
  · cases h
  · assumption

theorem commit_eq_error {s s' : Store} {batch : List ConfirmedBlock} {cause : ChainError}
    (h : s.commit batch = (s', .error cause)) : s'.chain = s.chain := by
  unfold Store.commit at h
  split at h
  · cases h
    rfl
  split at h
  · cases h
  · cases h
    rfl

theorem commit_of_disk {s s' : Store} {batch : List ConfirmedBlock} {cause : ChainError} (hdisk : s.outages = 0)
    (h : s.commit batch = (s', .error cause)) : s' = s ∧ s.chain.commit batch = .error cause := by
  simp only [Store.commit, hdisk] at h
  split at h
  · cases h
  · rename_i hcommit
    cases h
    exact ⟨rfl, hcommit⟩

theorem outages_commit (s : Store) (batch : List ConfirmedBlock) : (s.commit batch).1.outages = s.outages - 1 := by
  unfold Store.commit
  split
  · rename_i n hdisk
    rw [hdisk]
    rfl
  · rename_i hdisk
    split
    · exact hdisk.trans (by rw [hdisk])
    · exact hdisk.trans (by rw [hdisk])

theorem outages_commitUnconfirmed (s : Store) (tx : Transaction) : (s.commitUnconfirmed tx).1.outages = s.outages := by
  unfold Store.commitUnconfirmed
  split <;> rfl

theorem isClosed_commitUnconfirmed (s : Store) (tx : Transaction) :
    (s.commitUnconfirmed tx).1.chain.isClosed = s.chain.isClosed := by
  unfold Store.commitUnconfirmed
  split
  · rename_i hcommit
    unfold Chain.commitUnconfirmed at hcommit
    split at hcommit
    · cases hcommit
    split at hcommit
    · cases hcommit
      rfl
    · cases hcommit
      rfl
  · rfl

theorem sameBlocks_commitUnconfirmed (s : Store) (tx : Transaction) :
    s.chain.SameBlocks (s.commitUnconfirmed tx).1.chain := by
  unfold Store.commitUnconfirmed
  split
  · rename_i hcommit
    exact .commitUnconfirmed hcommit
  · exact .refl _

/-- **A submitted transaction** becomes unconfirmed exactly if the chain says that it is no mistake of the filter. -/
theorem contains_unconfirmed_commitUnconfirmed (s : Store) (tx : Transaction) (txid : Digest) :
    (s.commitUnconfirmed tx).1.chain.unconfirmed.contains txid = true ↔
      s.chain.unconfirmed.contains txid = true ∨ (s.commitUnconfirmed tx).2 = .ok false ∧ tx.txid = txid := by
  unfold Store.commitUnconfirmed Chain.commitUnconfirmed
  split
  · rename_i hcommit
    split at hcommit
    · cases hcommit
    split at hcommit
    · cases hcommit
      simp only [Table.contains_insert, Bool.or_eq_true, decide_eq_true_eq, true_and]
      rw [or_comm, @eq_comm _ txid]
    · cases hcommit
      simp
  · simp

end Store

/-! ## A few blocks -/

namespace Sample

def genesis : Header where
  version := 1
  previous := .zero
  merkleRoot := .zero
  timestamp := 0
  bits := 545259519
  nonce := 0
  height := 0

def genesisHash : Digest where
  bytes := [217, 173, 55, 57, 205, 93, 66, 61, 143, 101, 169, 127, 57, 214, 211, 148, 81, 216, 129, 78, 79, 108, 189,
    137, 241, 222, 188, 233, 141, 59, 115, 157]
  length_bytes := rfl

theorem hash_genesis : genesis.hash = genesisHash := by decide +kernel

/-- A block with a proof that names nothing. -/
def child (parent : Digest) (nonce : UInt32) : FilteredBlock where
  header := { genesis with previous := parent, nonce }
  proof := ⟨1, [.zero], [0]⟩

def payment : Transaction := ⟨1, [], [], 0⟩

/-- A block with a proof of the payment. -/
def paying : FilteredBlock where
  header := { genesis with previous := genesisHash, merkleRoot := payment.txid }
  proof := ⟨1, [payment.txid], [1]⟩

end Sample
end LightClient
