import LightClient.Proofs.Engine.Handling
/-!
# Moves

Every turn of the engine is a chain of moves: something is pooled, a round begins, a block or a transaction is taken
into it, a finished round is handed to the chain. `Move` says of each what it does to the chain's blocks, the round, the
pool and the attempts, with all that the engine checked before it.

A block or transaction in the engine's hands comes from outside, from the pool or from the blocks held back. So a
property that every move keeps and that answers for the items of the pool and of the round (`Invariant`) is kept by the
handling of every item (`Invariant.handled`) and thus by every turn (`Invariant.turn`). Runs follow by `run_induction`.
-/
namespace LightClient
namespace Engine

/-- What becomes of the requests of a round, which may be bound to a peer. Items come from the given deliveries. -/
inductive RequestMove (given : PeerId → OrphanItem → Prop) (c : Chain) (bound : Option PeerId) (r : Requests) :
    Requests → Prop where
  | ask {hashes} : (∀ hash ∈ hashes, c.knows hash = false) → RequestMove given c bound r (r.track hashes).1
  | hold {peer block} : bound = some peer → given peer (.block block) → RequestMove given c bound r (r.holdBack block)
  | release {hash} : RequestMove given c bound r { r with heldBack := r.heldBack.erase hash }
  /-- An awaited block is taken: from the bound peer, if there is one, and with its parent known or here. -/
  | block {peer block txids} : (∀ p, bound = some p → peer = p) → given peer (.block block) →
      Checked c block txids → r.isAwaitedBlock block.hash = true →
      (c.knows block.previous = true ∨ r.hasBlock block.previous = true ∨ block.previous = c.tip.hash) →
      RequestMove given c bound r (r.receiveBlock block txids).1
  | tx {peer tx} : (∀ p, bound = some p → peer = p) → given peer (.tx tx) → r.isAwaitedTx tx.txid = true →
      RequestMove given c bound r (r.receiveTx tx).1

inductive Move (given : PeerId → OrphanItem → Prop) (e e' : Engine) : Prop where
  /-- At most the pool changes. What is new in it was given. -/
  | aside : e.chain.SameBlocks e'.chain → e'.round = e.round → e'.attempts = e.attempts →
      (∀ hash o, e'.orphans.get? hash = some o → e.orphans.get? hash = some o ∨ given o.peer o.item) → Move given e e'
  /-- The round is over, and the next one asks for nothing yet. -/
  | anew : Frame e e' → (∀ round, e'.round = some round → round.requests = .empty) → Move given e e'
  /-- A round begins for one block on top of the tip. -/
  | tip {hash peer now} : Frame e e' → e.round = none → e.chain.knows hash = false →
      e'.round = some (.tip hash peer now) → Move given e e'
  | within {round round'} : Frame e e' → e.round = some round → e'.round = some round' →
      round'.syncPeer = round.syncPeer → RequestMove given e.chain round.syncPeer round.requests round'.requests →
      Move given e e'
  | refused {round cause} : Frame { e with attempts := e.attempts ++ [⟨round, .error cause⟩] } e' →
      e.round = some round → round.requests.isFinished = true → e'.round = some round → Move given e e'
  | committed {round c events} : e.round = some round → round.requests.isFinished = true →
      e.chain.commit round.requests.batch = .ok (c, events) → c.SameBlocks e'.chain → e'.orphans = e.orphans →
      e'.attempts = e.attempts ++ [⟨round, .ok ()⟩] →
      (∀ round', e'.round = some round' → round'.requests = .empty) → Move given e e'

/-- A property that every move keeps, and by which the items of the pool and of the round were given. -/
structure Invariant (given : PeerId → OrphanItem → Prop) (P : Engine → Prop) : Prop where
  move {e e' : Engine} : P e → Move given e e' → P e'
  held {e : Engine} {round : Round} {bound : PeerId} {hash : Digest} {block : FilteredBlock} : P e →
    e.round = some round → round.syncPeer = some bound → round.requests.heldBack.get? hash = some block →
    given bound (.block block)
  pooled {e : Engine} {hash : Digest} {o : Orphan} : P e → e.orphans.get? hash = some o → given o.peer o.item

theorem Move.quiet {given : PeerId → OrphanItem → Prop} {e e' : Engine} (h : Frame e e') (hround : e'.round = e.round) :
    Move given e e' :=
  .aside h.blocks hround h.attempts fun _ _ ho => Or.inl (by rw [← h.orphans]; exact ho)

/-! ## Calls -/

namespace Invariant

variable {given : PeerId → OrphanItem → Prop} {P : Engine → Prop} (h : Invariant given P)
include h

theorem quiet {e e' : Engine} (hP : P e) (hframe : Frame e e') (hround : e'.round = e.round) : P e' :=
  h.move hP (.quiet hframe hround)

theorem onward {env : Outlook} {e e' : Engine} (hP : P e) (hnone : e.round = none) (honward : Onward env e e') : P e' :=
  h.move hP (.anew honward.roundOnly.frame fun _ hround => honward.fresh hnone hround)

theorem restartWithout {env : Outlook} {e : Engine} (hP : P e) (offender : PeerId) :
    P (e.restartWithout env offender) := by
  have hdrop : P (e.drop env offender) := h.move hP (.anew ⟨.refl _, rfl, rfl⟩ fun _ hround => by cases hround)
  exact h.onward hdrop rfl (restartWithout_onward env e offender)

theorem completion {env : Outlook} {e e' : Engine} (hP : P e) (hcompletion : Completion env e e') : P e' := by
  cases hcompletion with
  | unfinished _ => exact hP
  | refused hround hfinished hcommit =>
    rename_i round store cause
    have hsame : e.chain.SameBlocks store.chain := by
      rw [Store.commit_eq_error hcommit]
      exact .refl _
    exact h.move hP (.refused ⟨hsame, rfl, rfl⟩ hround hfinished hround)
  | committed hround hfinished hcommit honward _ =>
    obtain ⟨events, hcommit⟩ := Store.commit_eq_ok hcommit
    have hframe := honward.roundOnly.frame
    exact h.move hP (.committed hround hfinished hcommit hframe.blocks hframe.orphans hframe.attempts
      fun _ hround' => honward.fresh rfl hround')

theorem addOrphan {env : Outlook} {e : Engine} (hP : P e) {hash : Digest} {item : OrphanItem} {peer : PeerId}
    (hgiven : given peer item) : P (e.addOrphan env hash item peer) := by
  refine h.move hP (.aside (.refl _) rfl rfl fun x o ho => ?_)
  rcases Orphans.get?_of_get?_insert ho with hold | ⟨-, rfl⟩
  · exact Or.inl hold
  · exact Or.inr hgiven

/-- A block is taken into the round, from the bound peer if there is one. -/
theorem recordBlock {env : Outlook} {e : Engine} (hP : P e) {round : Round} (hround : e.round = some round)
    {peer : PeerId} (hpeer : ∀ p, round.syncPeer = some p → peer = p) {block : FilteredBlock} {txids : List Digest}
    (hgiven : given peer (.block block)) (hchecked : Checked e.chain block txids)
    (hawaited : round.requests.isAwaitedBlock block.hash = true)
    (hparent : e.chain.knows block.previous = true ∨ round.requests.hasBlock block.previous = true ∨
      block.previous = e.chain.tip.hash) : P (e.recordBlock env round peer block txids) :=
  h.move hP (.within (roundOnly_recordBlock env e round peer block txids).frame hround
    (round_recordBlock env e round peer block txids) rfl (.block hpeer hgiven hchecked hawaited hparent))

/-- **The handling of an item that was given** keeps an invariant. -/
theorem handled {env : Outlook} {e e' : Engine} {peer : PeerId} {item : OrphanItem} (hP : P e)
    (hgiven : given peer item) (hhandled : Handled env e peer item e') : P e' := by
  cases hhandled with
  | dropped => exact hP
  | pooled _ _ => exact h.addOrphan hP hgiven
  | rejected _ _ _ => exact h.restartWithout hP peer
  | heldBack hround hsync _ _ =>
    obtain ⟨round', hround', hsame, hrequests⟩ := round_holdBack hround peer _
    refine h.move hP (.within (roundOnly_holdBack e peer _).frame hround hround' hsame ?_)
    rw [hrequests]
    exact .hold hsync hgiven
  | recorded hround hsync hchecked hawaited hready hcompletion =>
    refine h.completion (h.recordBlock hP hround (fun p hp => Option.some.inj (hsync.symm.trans hp)) hgiven hchecked
      hawaited ?_) hcompletion
    rw [Requests.isReady, Bool.or_eq_true] at hready
    exact hready.symm.imp_right Or.inl
  | begun hround hchecked hparent hcompletion =>
    rename_i block txids
    have htip : P { e with round := some (.tip block.hash peer env.now) } :=
      h.move hP (.tip ⟨.refl _, rfl, rfl⟩ hround hchecked.unknown rfl)
    rw [← recordBlock_withRound env e (some (.tip block.hash peer env.now))] at hcompletion
    refine h.completion (h.recordBlock htip rfl (fun p hp => by cases hp) hgiven hchecked ?_
      (Or.inr (Or.inr hparent))) hcompletion
    simp [Round.tip, Requests.ofHashes, Requests.track, Requests.isTracked, Requests.trackOne,
      Requests.isAwaitedBlock, Requests.empty, Requests.hasBlock]
  | offered _ =>
    obtain ⟨hframe, hround⟩ := frame_offerUnconfirmed env e _
    exact h.quiet hP hframe hround
  | fetched he₁ hround hpeer hawaited hcompletion =>
    rename_i tx e₁ round
    obtain ⟨hP₁, hround₁⟩ : P e₁ ∧ e₁.round = some round := by
      obtain ⟨hframe, hsame⟩ := frame_of_fetched he₁
      exact ⟨h.quiet hP hframe hsame, hsame.trans hround⟩
    have hmove : RequestMove given e₁.chain round.syncPeer round.requests (round.requests.receiveTx tx).1 :=
      .tx hpeer hgiven hawaited
    rw [← requests_receiveTx round env.now] at hmove
    have hP₂ : P { e₁ with round := some (round.receiveTx env.now tx) } :=
      h.move hP₁ (.within ⟨.refl _, rfl, rfl⟩ hround₁ rfl (syncPeer_receiveTx _ _ _) hmove)
    exact h.completion hP₂ hcompletion

/-- Entries may leave the pool at any time. -/
theorem unpool {e : Engine} (hP : P e) {orphans : Orphans}
    (hsub : ∀ hash o, orphans.get? hash = some o → e.orphans.get? hash = some o) : P { e with orphans } :=
  h.move hP (.aside (.refl _) rfl rfl fun hash o ho => Or.inl (hsub hash o ho))

theorem retainOrphans {e : Engine} (hP : P e) (keep : Digest → Orphan → Bool) :
    P { e with orphans := e.orphans.retain keep } :=
  h.unpool hP fun _ _ ho => Orphans.get?_of_get?_retain ho

theorem persistent (env : Outlook) : Persistent env given P where
  handled hP hgiven hhandled := h.handled hP hgiven hhandled
  held := h.held
  pooled := h.pooled
  release hP hround _ := h.move hP (.within ⟨.refl _, rfl, rfl⟩ hround rfl rfl .release)
  unpool _ hP := h.unpool hP fun _ _ ho => Orphans.get?_of_get?_erase ho
  retain keep hP := h.retainOrphans hP keep

/-! ### Openings -/

theorem offered {e e' : Engine} {peer : PeerId} (hP : P e) (hoffered : Offered e peer e') : P e' := by
  cases hoffered with
  | ignored => exact hP
  | requested message _ => exact h.quiet hP ⟨.refl _, rfl, rfl⟩ rfl
  | emptied _ => exact h.move hP (.anew ⟨.refl _, rfl, rfl⟩ fun _ hr => by cases hr)
  | extended message hround hbound hbound' hunknown _ hrequests _ =>
    refine h.move hP (.within ⟨.refl _, rfl, rfl⟩ hround rfl (hbound'.trans hbound.symm) ?_)
    rw [hrequests]
    exact .ask hunknown

theorem expire {env : Outlook} {e : Engine} (hP : P e) (now : Nat) : P (e.expire env now) :=
  have hout := h.retainOrphans hP fun _ o => env.now - o.received < e.orphans.lifetime
  h.quiet hout ⟨.refl _, rfl, rfl⟩ rfl

theorem lasting (env : Outlook) : Lasting env given P where
  handled := h.handled
  processOffer peer hashes hP := h.offered hP (processOffer_offered env _ peer hashes)
  completion := h.completion
  restartWithout offender hP := h.restartWithout hP offender
  abandon hP _ := h.move hP (.anew ⟨.refl _, rfl, rfl⟩ fun _ hr => by cases hr)
  expire now hP := h.expire hP now
  onward := h.onward

theorem opening {e : Engine} (hP : P e) (env : Outlook) {c : Call}
    (hgiven : ∀ peer item, c = .deliver peer item → given peer item) : P (e.opening env c) :=
  (h.lasting env).opening hP hgiven

/-- **Every call keeps an invariant**, if what it delivers was given. -/
theorem call {e : Engine} (hP : P e) (env : Outlook) {c : Call}
    (hgiven : ∀ peer item, c = .deliver peer item → given peer item) : P (e.call env c).1 :=
  (h.persistent env).call hP (h.opening hP env hgiven)

theorem turn {e : Engine} (hP : P e) {t : Turn}
    (hgiven : ∀ env peer item, t = .call env (.deliver peer item) → given peer item) : P (e.turn t) := by
  cases t with
  | call env c => exact h.call hP env fun peer item hc => hgiven env peer item (by rw [hc])
  | drain => exact h.quiet hP ⟨.refl _, rfl, rfl⟩ rfl
  | reload filter => exact h.quiet hP ⟨.refl _, rfl, rfl⟩ rfl
  | watch address => exact h.quiet hP ⟨⟨rfl, rfl, rfl, rfl⟩, rfl, rfl⟩ rfl
  | submit tx => exact h.quiet hP ⟨e.store.sameBlocks_commitUnconfirmed tx, rfl, rfl⟩ rfl
  | outage count => exact h.quiet hP ⟨.refl _, rfl, rfl⟩ rfl
  | close => exact h.quiet hP ⟨⟨rfl, rfl, rfl, rfl⟩, rfl, rfl⟩ rfl

end Invariant

/-! ## Runs -/

theorem IsNew.eq {c : Chain} {e : Engine} (h : IsNew c e) :
    e.chain = c ∧ e.round = none ∧ e.attempts = [] ∧ ∀ hash, e.orphans.get? hash = none := by
  obtain ⟨settings, store, filter, hchain, he⟩ := h
  obtain ⟨patience, -, rfl⟩ := Option.map_eq_some_iff.1 he
  exact ⟨hchain, rfl, rfl, fun _ => rfl⟩

theorem turn_call (env : Outlook) (e : Engine) (c : Call) : e.turn (.call env c) = (e.call env c).1 := rfl

theorem run_concat (e : Engine) (turns : List Turn) (t : Turn) : e.run (turns ++ [t]) = (e.run turns).turn t :=
  List.foldl_concat ..

/-- **What holds throughout a run**: a property of the turns so far and the engine they lead to. -/
theorem run_induction {P : List Turn → Engine → Prop} {e₀ : Engine} (hstart : P [] e₀)
    (hturn : ∀ turns e t, P turns e → P (turns ++ [t]) (e.turn t)) (turns : List Turn) : P turns (e₀.run turns) := by
  induction turns using List.reverseRecOn with
  | nil => exact hstart
  | append_singleton turns t ih =>
    rw [run_concat]
    exact hturn turns _ t ih

theorem Reachable.run {c : Chain} {e : Engine} (he : Reachable c e) (turns : List Turn) : Reachable c (e.run turns) := by
  obtain ⟨e₀, before, hnew, rfl⟩ := he
  exact ⟨e₀, before ++ turns, hnew, List.foldl_append⟩

/-- **An invariant of new engines that asks nothing of the items** holds in every reachable state. -/
theorem Reachable.invariant {P : Engine → Prop} (h : Invariant (fun _ _ => True) P) {c : Chain}
    (hnew : ∀ e, IsNew c e → P e) {e : Engine} (he : Reachable c e) : P e := by
  obtain ⟨e₀, turns, hnew₀, rfl⟩ := he
  exact run_induction (P := fun _ e => P e) (hnew e₀ hnew₀) (fun _ _ _ hP => h.turn hP fun _ _ _ _ => trivial) turns

/-! ## Properties of the chain and the round -/

/-- The chain has one property, and what the round holds has another, which may speak of the chain. -/
structure Holds (C : Chain → Prop) (R : Chain → Requests → Prop) (e : Engine) : Prop where
  chain : C e.chain
  round {round : Round} : e.round = some round → R e.chain round.requests

theorem Holds.of_round {C : Chain → Prop} {R : Chain → Requests → Prop} {e : Engine} {round : Round} (hc : C e.chain)
    (hround : e.round = some round) (hr : R e.chain round.requests) : Holds C R e := by
  refine ⟨hc, fun hround' => ?_⟩
  rw [hround, Option.some.injEq] at hround'
  rw [← hround']
  exact hr

/-- What it takes for two such properties to hold throughout a run. -/
structure Stable (C : Chain → Prop) (R : Chain → Requests → Prop) : Prop where
  chain_congr {c c' : Chain} : C c → c.SameBlocks c' → C c'
  congr {c c' : Chain} {r : Requests} : R c r → c.SameBlocks c' → R c' r
  empty (c : Chain) : R c .empty
  within {given : PeerId → OrphanItem → Prop} {c : Chain} {bound : Option PeerId} {r r' : Requests} : C c → R c r →
    RequestMove given c bound r r' → R c r'
  commit {c c' : Chain} {r : Requests} {events : List ChainEvent} : C c → R c r →
    c.commit r.batch = .ok (c', events) → C c'

namespace Stable

variable {C : Chain → Prop} {R : Chain → Requests → Prop} (h : Stable C R)
include h

theorem fresh {e : Engine} (hc : C e.chain) (hfresh : ∀ round, e.round = some round → round.requests = .empty) :
    Holds C R e :=
  ⟨hc, fun hround => by rw [hfresh _ hround]; exact h.empty _⟩

theorem same {e e' : Engine} (he : Holds C R e) (hblocks : e.chain.SameBlocks e'.chain) (hround : e'.round = e.round) :
    Holds C R e' :=
  ⟨h.chain_congr he.chain hblocks, fun hr => h.congr (he.round (hround.symm.trans hr)) hblocks⟩

theorem move {given : PeerId → OrphanItem → Prop} {e e' : Engine} (he : Holds C R e) (hmove : Move given e e') :
    Holds C R e' := by
  cases hmove with
  | aside hblocks hround _ _ => exact h.same he hblocks hround
  | anew hframe hfresh => exact h.fresh (h.chain_congr he.chain hframe.blocks) hfresh
  | tip hframe _ hunknown hround =>
    have hask : RequestMove given e.chain none .empty (.ofHashes [_]) := .ask fun _ hx => by
      rw [List.mem_singleton.1 hx]
      exact hunknown
    exact .of_round (h.chain_congr he.chain hframe.blocks) hround
      (h.congr (h.within he.chain (h.empty _) hask) hframe.blocks)
  | within hframe hround hround' _ hrequests =>
    exact .of_round (h.chain_congr he.chain hframe.blocks) hround'
      (h.congr (h.within he.chain (he.round hround) hrequests) hframe.blocks)
  | refused hframe hround _ hround' => exact h.same he hframe.blocks (hround'.trans hround.symm)
  | committed hround _ hcommit hblocks _ _ hfresh =>
    exact h.fresh (h.chain_congr (h.commit he.chain (he.round hround) hcommit) hblocks) hfresh

theorem invariant : Invariant (fun _ _ => True) (Holds C R) := ⟨h.move, fun _ _ _ _ => trivial, fun _ _ => trivial⟩

theorem ofNew {c : Chain} (hc : C c) {e : Engine} (hnew : IsNew c e) : Holds C R e := by
  obtain ⟨hchain, hround, -, -⟩ := hnew.eq
  refine h.fresh (by rw [hchain]; exact hc) fun round hr => ?_
  rw [hround] at hr
  cases hr

/-- **Stable properties hold in every reachable state.** -/
theorem reachable {c : Chain} (hc : C c) {e : Engine} (he : Reachable c e) : Holds C R e :=
  he.invariant h.invariant fun _ hnew => h.ofNew hc hnew

end Stable

/-- The books of the round are in order. -/
abbrev Booked : Engine → Prop := Holds (fun _ => True) fun _ r => r.Consistent

theorem stable_booked : Stable (fun _ => True) fun _ r => r.Consistent where
  chain_congr h _ := h
  congr h _ := h
  empty _ := .empty
  within _ h hmove := by
    cases hmove with
    | ask _ => exact h.track _
    | hold _ _ => exact h.holdBack _
    | release => exact h.eraseHeldBack _
    | block _ _ _ _ _ => exact h.receiveBlock _ _
    | tx _ _ _ => exact h.receiveTx _
  commit h _ _ := h

end Engine

/-! ## A new engine -/

namespace Sample

def peer : PeerId := ⟨1⟩

/-- The peer is connected and ahead of us. -/
def outlook : Outlook := ⟨0, [⟨peer, 5, .established, 0⟩]⟩

def filter : AddressFilter where
  rate := 0
  addresses := []
  filter := ⟨1, 1, 0, Nat.one_pos, Nat.one_pos, .replicate 1 false, 0⟩
  tweaks := fun _ => 0
  drawn := 0

def engine : Engine := (Engine.ofSettings? .default (.ofChain (.ofGenesis genesis)) filter).get rfl

theorem isNew_engine : Engine.IsNew (.ofGenesis genesis) engine := ⟨_, _, _, rfl, (Option.some_get _).symm⟩

end Sample
end LightClient
