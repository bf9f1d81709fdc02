import LightClient.Proofs.Engine.HeldBack
import LightClient.Proofs.Engine.Quiescence
import LightClient.Proofs.Requests.Releasing
/-!
# The order of releases

Of the blocks held back that can be let go, the engine takes the one that was held back longest. Here any of them may be
the next (`Release`), and so on for as long as there is one (`EndsAt`).

A release changes the books of the round and asks for transactions, and that is all until the round is finished
(`MidRelease`). What is in the books follows from which blocks were let go (`Requests.TakenFrom`), and in the end these
are the same (`EndsAt.midRelease`). A block that is held back is awaited, so the round can only be finished by the last
release. It is handed to the chain there, at most once, and all that follows goes by what the round holds
(`finishIfComplete_alike`).
-/
namespace LightClient

/-- The same round, but for the order in which things came. -/
structure Round.Alike (r r' : Round) : Prop where
  requests : r.requests.Alike r'.requests
  rest : r' = { r with requests := r'.requests }

theorem Round.Alike.refl (r : Round) : r.Alike r := ⟨.refl _, rfl⟩

/-- The same batch was handed to the chain, and the chain said the same. -/
structure Attempt.Alike (a a' : Attempt) : Prop where
  round : a.round.Alike a'.round
  batch : a'.round.requests.batch = a.round.requests.batch
  result : a'.result = a.result

namespace Engine

/-! ## Releases in any order -/

/-- Any one of the blocks held back whose parent is here is let go and handed back to the engine. -/
inductive Release (env : Outlook) (e : Engine) : Engine → Prop where
  | mk {round bound hash block} : e.round = some round → round.syncPeer = some bound →
      round.requests.heldBack.get? hash = some block → round.requests.isReady e.chain.knows block = true →
      Release env e ({ e with round := some { round with requests :=
        { round.requests with heldBack := round.requests.heldBack.erase hash } } }.processBlock env bound block).1

/-- So many releases, one after the other. -/
inductive Releases (env : Outlook) : Nat → Engine → Engine → Prop where
  | none {e} : Releases env 0 e e
  | more {n e e₁ e₂} : Releases env n e e₁ → Release env e₁ e₂ → Releases env (n + 1) e e₂

/-- Releases, chosen in any way, for as long as there is one to choose. -/
def EndsAt (env : Outlook) (e f : Engine) : Prop := (∃ n, Releases env n e f) ∧ ∀ f', ¬ Release env f f'

theorem Releases.first {env : Outlook} {e e₁ e₂ : Engine} {n : Nat} (hfirst : Release env e e₁)
    (h : Releases env n e₁ e₂) : Releases env (n + 1) e e₂ := by
  induction h with
  | none => exact .more .none hfirst
  | more _ hlast ih => exact .more (ih hfirst) hlast

/-- **The engine's own choice is one of those possible.** -/
theorem Released.endsAt {env : Outlook} {e f : Engine} (h : Released env e f) : EndsAt env e f := by
  induction h with
  | done hnone =>
    refine ⟨⟨0, .none⟩, fun f' hrelease => ?_⟩
    obtain ⟨hround, hbound, hheld, hready⟩ := hrelease
    rw [Requests.releaseReady?_eq_none (hnone _ _ hround hbound) hheld] at hready
    cases hready
  | next hround hbound hrelease _ ih =>
    obtain ⟨⟨n, hreleases⟩, hend⟩ := ih
    obtain ⟨hash, hheld, hready, rfl⟩ := Requests.releaseReady?_eq_some hrelease
    exact ⟨⟨n + 1, .first (.mk hround hbound hheld hready) hreleases⟩, hend⟩

/-! ## In the middle of the releases -/

/-- The messages that ask a peer for transactions, one for each list. -/
def requestsFor (peer : PeerId) (asked : List (List Digest)) : List Command :=
  asked.map fun txids => .send peer (.getData (txids.map .tx))

/-- A message is sent only if there is something to ask for. -/
def inOneMessage (txids : List Digest) : List (List Digest) := if txids.isEmpty then [] else [txids]

theorem flatten_inOneMessage (txids : List Digest) : (inOneMessage txids).flatten = txids := by
  cases txids <;> simp [inOneMessage]

theorem recordBlock_eq_requestsFor (env : Outlook) (e : Engine) (round : Round) (peer : PeerId) (block : FilteredBlock)
    (txids : List Digest) :
    e.recordBlock env round peer block txids =
      { e with
        round := some (round.receiveBlock env.now block txids).1
        commands := e.commands ++ requestsFor peer (inOneMessage (round.receiveBlock env.now block txids).2) } := by
  simp only [recordBlock, inOneMessage]
  split
  · rw [requestsFor, List.map_nil, List.append_nil]
  · rfl

section
variable (env : Outlook) (e : Engine) (round : Round) (bound : PeerId)

/-- The engine with other books in its round, after some requests for transactions. Taking a block is progress. -/
def withBooks (taken : List Digest) (requests : Requests) (asked : List (List Digest)) : Engine :=
  { e with
    round := some { round with
      requests
      lastProgress :=
        if taken.any fun hash => (round.requests.arrivalOf (vet e.chain) hash).isSome then env.now
        else round.lastProgress }
    commands := e.commands ++ requestsFor bound asked }

/-- The engine after some of the blocks held back were let go. It has not looked yet whether the round is finished. -/
def MidRelease (taken : List Digest) (m : Engine) : Prop :=
  ∃ requests asked, round.requests.TakenFrom (vet e.chain) taken requests asked.flatten ∧
    m = e.withBooks env round bound taken requests asked

end

variable {env : Outlook} {e m m' : Engine} {round : Round} {bound : PeerId} {taken : List Digest}

theorem midRelease_nil (hround : e.round = some round) (hbooks : round.requests.Consistent) :
    MidRelease env e round bound [] e := by
  refine ⟨round.requests, [], .refl hbooks, ?_⟩
  rw [withBooks, requestsFor, List.map_nil, List.append_nil, List.any_nil, if_neg Bool.false_ne_true, ← hround]

/-- **One release** lets go of one more block, and then the engine looks whether the round is finished. -/
theorem MidRelease.release (h : MidRelease env e round bound taken m) (hbound : round.syncPeer = some bound)
    (hfreed : ∀ hash ∈ taken, round.requests.Freed (vet e.chain) e.chain.knows hash) (hrelease : Release env m m') :
    ∃ hash ∉ taken, round.requests.Freed (vet e.chain) e.chain.knows hash ∧
      ∃ m₁, MidRelease env e round bound (taken ++ [hash]) m₁ ∧ m' = (m₁.finishIfComplete env).1 := by
  obtain ⟨requests, asked, htaken, rfl⟩ := h
  obtain ⟨hround, hbound', hheld, hready⟩ := hrelease
  rename_i round' bound' hash block
  cases hround
  obtain rfl : bound = bound' := Option.some.inj (hbound.symm.trans hbound')
  have hnext := htaken.letGo hheld
  have hfresh := htaken.get?_heldBack.1 hheld
  refine ⟨hash, hfresh.1, htaken.freed hfreed hheld hready, ?_⟩
  have harrival : round.requests.arrivalOf (vet e.chain) hash = (vet e.chain block).map (⟨block, ·⟩) :=
    Requests.arrivalOf_of_get? hfresh.2
  obtain ⟨rfl, hawaited⟩ := htaken.consistent.heldBack hheld
  let books : Requests := { requests with heldBack := requests.heldBack.erase block.hash }
  change ∃ m₁, _ ∧ ((e.withBooks env round bound taken books asked).processBlock env bound block).1 = _
  cases hvet : vet e.chain block with
  | none =>
    rw [Requests.letGo_of_refused hvet, List.append_nil] at hnext
    rw [hvet, Option.map_none] at harrival
    refine ⟨_, ⟨_, asked, hnext, rfl⟩, ?_⟩
    rw [processBlock_of_vet_eq_none env (e := e.withBooks env round bound taken books asked) hvet,
      finishIfComplete_of_unfinished]
    · simp [withBooks, harrival, books]
    · rintro round' hround'
      cases hround'
      exact Requests.isFinished_of_awaited hawaited
  | some txids =>
    rw [Requests.letGo_of_vetted hvet] at hnext
    rw [hvet, Option.map_some] at harrival
    have hchecked : Checked e.chain block txids := vet_eq_some_iff.1 hvet
    rw [processBlock_of_bound env (e := e.withBooks env round bound taken books asked) rfl hbound hchecked hawaited,
      if_pos (by exact hready), recordBlock_eq_requestsFor]
    refine ⟨_, ⟨(books.receiveBlock block txids).1, asked ++ inOneMessage (books.receiveBlock block txids).2, ?_, ?_⟩,
      rfl⟩
    · rw [List.flatten_append, flatten_inOneMessage]
      exact hnext
    · simp [withBooks, harrival, Round.receiveBlock_eq, requestsFor, List.append_assoc, books]

/-- A round that is finished holds nothing back, and the one after it has not asked for anything yet. -/
theorem Completion.not_release (h : Completion env m m') {round : Round} (hround : m.round = some round)
    (hbooks : round.requests.Consistent) (hfinished : round.requests.isFinished = true) (f : Engine) :
    ¬ Release env m' f := by
  rintro ⟨hround', -, hheld, -⟩
  rcases h.round_cases hround' with hkept | hempty
  · cases hround.symm.trans hkept
    obtain ⟨-, hawaited⟩ := hbooks.heldBack hheld
    rw [Requests.isFinished_of_awaited hawaited] at hfinished
    cases hfinished
  · rw [hempty] at hheld
    cases hheld

/-- Unless the round is finished, the look whether it is changes nothing. -/
theorem finishIfComplete_eq_self (env : Outlook) (hround : m.round = some round)
    (hfinished : round.requests.isFinished = false) : (m.finishIfComplete env).1 = m := by
  rw [finishIfComplete_of_unfinished env]
  intro round' hround'
  cases hround.symm.trans hround'
  exact hfinished

section
variable (hround : e.round = some round) (hbound : round.syncPeer = some bound)
  (hbooks : round.requests.Consistent)
include hround hbound hbooks

/-- **Where any releases lead.** Only blocks that can be let go at all are let go, each of them once, and the look
whether the round is finished comes after the last of them. -/
theorem Releases.midRelease {n : Nat} {f : Engine} (h : Releases env n e f) :
    ∃ taken m, taken.length = n ∧ taken.Nodup ∧
      (∀ hash ∈ taken, round.requests.Freed (vet e.chain) e.chain.knows hash) ∧
      MidRelease env e round bound taken m ∧ f = if n = 0 then m else (m.finishIfComplete env).1 := by
  induction h with
  | @none e =>
    exact ⟨[], e, rfl, List.nodup_nil, fun _ hmem => absurd hmem List.not_mem_nil, midRelease_nil hround hbooks, rfl⟩
  | @more n e e₁ e₂ _ hlast ih =>
    obtain ⟨taken, m, hlength, hnodup, hfreed, hmid, he₁⟩ := ih hround
    -- the round was not finished so far, for a finished one holds nothing back that could be let go now
    have hsame : e₁ = m := by
      obtain ⟨requests, asked, htaken, rfl⟩ := hmid
      rw [he₁]
      split
      · rfl
      rename_i hn
      rw [if_neg hn] at he₁
      cases hfinished : requests.isFinished with
      | false => exact finishIfComplete_eq_self env rfl hfinished
      | true =>
        rw [he₁] at hlast
        exact absurd hlast ((finishIfComplete_completion env _).not_release rfl htaken.consistent hfinished _)
    rw [hsame] at hlast
    obtain ⟨hash, hnew, hfree, m₁, hmid₁, rfl⟩ := hmid.release hbound hfreed hlast
    refine ⟨taken ++ [hash], m₁, by rw [List.length_append, hlength, List.length_singleton], ?_, ?_, hmid₁, rfl⟩
    · exact List.nodup_append.2 ⟨hnodup, List.nodup_singleton hash,
        fun x hx y hy => by rw [List.mem_singleton.1 hy]; exact fun heq => hnew (heq ▸ hx)⟩
    · intro x hx
      rcases List.mem_append.1 hx with hx | hx
      · exact hfreed x hx
      · rw [List.mem_singleton.1 hx]
        exact hfree

/-- **Where releases end**: all the blocks that can be let go have been. -/
theorem EndsAt.midRelease {f : Engine} (h : EndsAt env e f) :
    ∃ taken m, (∀ hash, hash ∈ taken ↔ round.requests.Freed (vet e.chain) e.chain.knows hash) ∧
      MidRelease env e round bound taken m ∧ f = if taken = [] then m else (m.finishIfComplete env).1 := by
  obtain ⟨⟨n, hreleases⟩, hend⟩ := h
  obtain ⟨taken, m, hlength, -, hfreed, hmid, hf⟩ := hreleases.midRelease hround hbound hbooks
  have hempty : n = 0 ↔ taken = [] := by rw [← hlength, List.length_eq_zero_iff]
  simp only [hempty] at hf
  refine ⟨taken, m, fun hash => ⟨hfreed hash, fun hfree => ?_⟩, hmid, hf⟩
  obtain ⟨requests, asked, htaken, rfl⟩ := hmid
  refine htaken.mem_of_freed (fun hash block hheld => ?_) hfree
  rw [Bool.eq_false_iff]
  intro hready
  obtain ⟨-, hawaited⟩ := htaken.consistent.heldBack hheld
  have hsame : f = e.withBooks env round bound taken requests asked := by
    rw [hf, finishIfComplete_eq_self env rfl (Requests.isFinished_of_awaited hawaited), ite_self]
  rw [hsame] at hend
  exact hend _ (.mk rfl hbound hheld hready)

end

/-! ## What the order leaves no trace in -/

/-- Engines that differ in the order of things within the round, and in what was said. -/
structure Alike (e e' : Engine) : Prop where
  round : Option.Rel Round.Alike e.round e'.round
  rest : e' = { e with round := e'.round, commands := e'.commands, attempts := e'.attempts }

/-- Two engines that came from the same one. They are alike, they handed the same batches to the chain, and they said
the same, but for the order of the transactions that they asked their peer for and for how many they asked for at a
time. -/
structure SameOutcome (bound : PeerId) (e f f' : Engine) : Prop where
  alike : Alike f f'
  attempts : ∃ new new', f.attempts = e.attempts ++ new ∧ f'.attempts = e.attempts ++ new' ∧
    List.Forall₂ Attempt.Alike new new'
  commands : ∃ asked asked' said, f.commands = e.commands ++ requestsFor bound asked ++ said ∧
    f'.commands = e.commands ++ requestsFor bound asked' ++ said ∧ asked'.flatten.Perm asked.flatten

/-- What an engine without a round goes on with: the next peer that is ahead of it, or nobody. -/
def goOn (env : Outlook) (e : Engine) (last : Option PeerId) : Engine :=
  match e.policy.select env.peers e.chain.height none last env.now with
  | some peer => e.beginRound env peer
  | none => if last.isSome then e.command (.bind none) else e

theorem finishIfComplete_eq_of_error (env : Outlook) {r : Round} {store : Store} {cause : ChainError}
    (hround : m.round = some r) (hfinished : r.requests.isFinished = true)
    (hcommit : m.store.commit r.requests.batch = (store, .error cause)) :
    (m.finishIfComplete env).1 = m.attempt r store (.error cause) := by
  have hfilter : m.round.filter (·.requests.isFinished) = some r := by
    rw [hround]
    exact Option.filter_some_pos hfinished
  simp only [finishIfComplete, hfilter, hcommit]

theorem finishIfComplete_eq_of_ok (env : Outlook) {r : Round} {store : Store} (hround : m.round = some r)
    (hfinished : r.requests.isFinished = true) (hcommit : m.store.commit r.requests.batch = (store, .ok ())) :
    (m.finishIfComplete env).1 = ((m.attempt r store (.ok ())).closeRound r).goOn env r.syncPeer := by
  have hfilter : m.round.filter (·.requests.isFinished) = some r := by
    rw [hround]
    exact Option.filter_some_pos hfinished
  simp only [finishIfComplete, hfilter, hcommit]
  have hnone : ((m.attempt r store (.ok ())).closeRound r).round = none := rfl
  generalize (m.attempt r store (.ok ())).closeRound r = closed at hnone
  rw [goOn]
  cases hselect : closed.policy.select env.peers closed.chain.height none r.syncPeer env.now with
  | some peer =>
    rw [startSync_of_select hnone hselect]
    rfl
  | none =>
    rw [startSync_of_behind (PeerPolicy.select_eq_none_iff.1 hselect), Bool.not_false, Bool.true_and]

/-- What comes after a round does not depend on what was said before, nor on what was recorded. -/
theorem goOn_congr (env : Outlook) (e : Engine) (last : Option PeerId) (commands : List Command)
    (attempts : List Attempt) :
    let f := e.goOn env last
    let f' := ({ e with commands, attempts } : Engine).goOn env last
    f'.round = f.round ∧ f' = { f with round := f'.round, commands := f'.commands, attempts := f'.attempts } ∧
      f.attempts = e.attempts ∧ f'.attempts = attempts ∧
      ∃ said, f.commands = e.commands ++ said ∧ f'.commands = commands ++ said := by
  intro f f'
  cases hselect : e.policy.select env.peers e.chain.height none last env.now with
  | some peer =>
    have hf : f = e.beginRound env peer := by simp only [f, goOn, hselect]
    have hf' : f' = ({ e with commands, attempts } : Engine).beginRound env peer := by
      have hselect' := hselect
      simp only [f', goOn, chain] at hselect' ⊢
      rw [hselect']
    rw [hf, hf']
    refine ⟨rfl, rfl, rfl, rfl, [.bind (some peer), .send peer (.getBlocks e.chain.locator Digest.zero)], ?_, ?_⟩
    · simp [beginRound, askForBlocks, send, command]
    · simp [beginRound, askForBlocks, send, command, chain]
  | none =>
    have hf : f = if last.isSome then e.command (.bind none) else e := by simp only [f, goOn, hselect]
    have hf' : f' = if last.isSome then ({ e with commands, attempts } : Engine).command (.bind none)
        else { e with commands, attempts } := by
      have hselect' := hselect
      simp only [f', goOn, chain] at hselect' ⊢
      rw [hselect']
    rw [hf, hf']
    cases last.isSome with
    | true => exact ⟨rfl, rfl, rfl, rfl, [.bind none], rfl, rfl⟩
    | false => exact ⟨rfl, rfl, rfl, rfl, [], (List.append_nil _).symm, (List.append_nil _).symm⟩

/-- The block is in the round now, or it was in the one that has been handed to the chain since. -/
def Took (e f : Engine) (hash : Digest) : Prop :=
  ∃ round, (f.round = some round ∨ ∃ result, f.attempts = e.attempts ++ [⟨round, result⟩]) ∧
    round.requests.hasBlock hash = true

/-- Two engines, each of them further on than another one. They are alike, and since then they handed the same batches
to the chain and said the same. -/
structure AlikeSince (m m' f f' : Engine) : Prop where
  alike : Alike f f'
  attempts : ∃ new new', f.attempts = m.attempts ++ new ∧ f'.attempts = m'.attempts ++ new' ∧
    List.Forall₂ Attempt.Alike new new'
  commands : ∃ said, f.commands = m.commands ++ said ∧ f'.commands = m'.commands ++ said

theorem AlikeSince.refl {m m' : Engine} (halike : Alike m m') : AlikeSince m m' m m' where
  alike := halike
  attempts := ⟨[], [], (List.append_nil _).symm, (List.append_nil _).symm, .nil⟩
  commands := ⟨[], (List.append_nil _).symm, (List.append_nil _).symm⟩

section
variable (env : Outlook) {r r' : Round} (hround : m.round = some r) (halike : r.Alike r') (commands : List Command)
include hround halike

theorem alike_withRound : Alike m { m with round := some r', commands } where
  round := by
    rw [hround]
    exact .some halike
  rest := rfl

/-- The chain refuses the batch, so the round stays. -/
theorem finishIfComplete_alike_of_error {store : Store} {cause : ChainError}
    (hfinished : r.requests.isFinished = true)
    (hcommit : m.store.commit r.requests.batch = (store, .error cause)) :
    AlikeSince m { m with round := some r', commands } (m.finishIfComplete env).1
      (({ m with round := some r', commands } : Engine).finishIfComplete env).1 := by
  have hbatch := halike.requests.batch
  rw [finishIfComplete_eq_of_error env hround hfinished hcommit,
    finishIfComplete_eq_of_error env (m := { m with round := some r', commands }) rfl
      (halike.requests.isFinished.trans hfinished) (by rw [hbatch, hcommit])]
  refine ⟨⟨?_, rfl⟩, ⟨[_], [_], rfl, rfl, .cons ⟨halike, hbatch, rfl⟩ .nil⟩, [], ?_, ?_⟩
  · exact (alike_withRound hround halike commands).round
  · exact (List.append_nil _).symm
  · exact (List.append_nil _).symm

/-- The chain takes the batch, and the engine goes on without the round. -/
theorem finishIfComplete_alike_of_ok {store : Store} (hfinished : r.requests.isFinished = true)
    (hcommit : m.store.commit r.requests.batch = (store, .ok ())) :
    AlikeSince m { m with round := some r', commands } (m.finishIfComplete env).1
      (({ m with round := some r', commands } : Engine).finishIfComplete env).1 := by
  have hbatch := halike.requests.batch
  rw [finishIfComplete_eq_of_ok env hround hfinished hcommit,
    finishIfComplete_eq_of_ok env (m := { m with round := some r', commands }) rfl
      (halike.requests.isFinished.trans hfinished) (by rw [hbatch, hcommit])]
  have hpeer : r'.syncPeer = r.syncPeer := by
    rw [halike.rest]
    rfl
  have hclosed : ((({ m with round := some r', commands } : Engine).attempt r' store (.ok ())).closeRound r') =
      { (m.attempt r store (.ok ())).closeRound r with
        commands := commands ++ [.announce store.chain.height], attempts := m.attempts ++ [⟨r', .ok ()⟩] } := by
    simp only [closeRound, attempt, command, hbatch, chain]
  rw [hclosed, hpeer]
  obtain ⟨hsame, hrest, hattempts, hattempts', said, hsaid, hsaid'⟩ := goOn_congr env
    ((m.attempt r store (.ok ())).closeRound r) r.syncPeer (commands ++ [.announce store.chain.height])
    (m.attempts ++ [⟨r', .ok ()⟩])
  refine ⟨⟨?_, hrest⟩, ⟨[_], [_], hattempts, hattempts', .cons ⟨halike, hbatch, rfl⟩ .nil⟩,
    .announce store.chain.height :: said, ?_, ?_⟩
  · rw [hsame]
    cases (((m.attempt r store (.ok ())).closeRound r).goOn env r.syncPeer).round with
    | none => exact .none
    | some next => exact .some (.refl next)
  · exact hsaid.trans (List.append_assoc m.commands _ said)
  · exact hsaid'.trans (List.append_assoc commands _ said)

/-- **The look whether the round is finished** goes by what the round holds, not by the order in which it came. -/
theorem finishIfComplete_alike :
    AlikeSince m { m with round := some r', commands } (m.finishIfComplete env).1
      (({ m with round := some r', commands } : Engine).finishIfComplete env).1 := by
  cases hfinished : r.requests.isFinished with
  | false =>
    rw [finishIfComplete_eq_self env hround hfinished,
      finishIfComplete_eq_self env (m := { m with round := some r', commands }) rfl
        (halike.requests.isFinished.trans hfinished)]
    exact .refl (alike_withRound hround halike commands)
  | true =>
    rcases hcommit : m.store.commit r.requests.batch with ⟨store, cause | _⟩
    · exact finishIfComplete_alike_of_error env hround halike commands hfinished hcommit
    · exact finishIfComplete_alike_of_ok env hround halike commands hfinished hcommit

end

section
variable (hround : e.round = some round) (hbound : round.syncPeer = some bound)
  (hbooks : round.requests.Consistent)
include hround hbound hbooks

/-- **There are at most as many releases as blocks held back.** -/
theorem Releases.le {n : Nat} {f : Engine} (h : Releases env n e f) : n ≤ round.requests.heldBack.size := by
  obtain ⟨taken, -, rfl, hnodup, hfreed, -⟩ := h.midRelease hround hbound hbooks
  rw [← Table.length_keys]
  refine (List.subperm_of_subset hnodup fun hash hmem => ?_).length_le
  obtain ⟨block, hheld⟩ := (hfreed hash hmem).held
  exact Table.contains_iff.1 (Table.contains_of_get? hheld)

/-- **Whatever is chosen, releases end alike.** -/
theorem EndsAt.sameOutcome {f f' : Engine} (h : EndsAt env e f) (h' : EndsAt env e f') : SameOutcome bound e f f' := by
  obtain ⟨taken, m, hfreed, ⟨requests, asked, htaken, rfl⟩, hf⟩ := h.midRelease hround hbound hbooks
  obtain ⟨taken', m', hfreed', ⟨requests', asked', htaken', rfl⟩, hf'⟩ := h'.midRelease hround hbound hbooks
  have hsame (hash : Digest) : hash ∈ taken ↔ hash ∈ taken' := (hfreed hash).trans (hfreed' hash).symm
  have hempty : taken = [] ↔ taken' = [] := by
    simp only [List.eq_nil_iff_forall_not_mem, hsame]
  obtain ⟨halike, hperm⟩ := htaken.alike htaken' hsame
  have hprogress : (taken'.any fun hash => (round.requests.arrivalOf (vet e.chain) hash).isSome) =
      taken.any fun hash => (round.requests.arrivalOf (vet e.chain) hash).isSome := by
    rw [Bool.eq_iff_iff]
    simp only [List.any_eq_true, hsame]
  let r : Round := { round with
    requests
    lastProgress :=
      if taken.any fun hash => (round.requests.arrivalOf (vet e.chain) hash).isSome then env.now
      else round.lastProgress }
  have hrounds : r.Alike { r with requests := requests' } := ⟨halike, rfl⟩
  have hm' : e.withBooks env round bound taken' requests' asked' =
      { e.withBooks env round bound taken requests asked with
        round := some { r with requests := requests' }
        commands := e.commands ++ requestsFor bound asked' } := by
    rw [withBooks, hprogress]
    rfl
  rw [hm'] at hf'
  by_cases htaken : taken = []
  · rw [if_pos htaken] at hf
    rw [if_pos (hempty.1 htaken)] at hf'
    rw [hf, hf']
    exact ⟨⟨.some hrounds, rfl⟩, ⟨[], [], (List.append_nil _).symm, (List.append_nil _).symm, .nil⟩,
      asked, asked', [], (List.append_nil _).symm, (List.append_nil _).symm, hperm⟩
  · rw [if_neg htaken] at hf
    rw [if_neg (mt hempty.2 htaken)] at hf'
    obtain ⟨hfinal, hattempts, said, hsaid, hsaid'⟩ := finishIfComplete_alike env
      (m := e.withBooks env round bound taken requests asked) rfl hrounds (e.commands ++ requestsFor bound asked')
    rw [← hf, ← hf'] at hfinal hattempts
    rw [← hf] at hsaid
    rw [← hf'] at hsaid'
    exact ⟨hfinal, hattempts, asked, asked', said, hsaid, hsaid', hperm⟩

/-- **Every block that can be let go, and that the checks do not refuse, is taken into the round.** -/
theorem EndsAt.took {f : Engine} (h : EndsAt env e f) {hash : Digest}
    (hfreed : round.requests.Freed (vet e.chain) e.chain.knows hash)
    (harrival : (round.requests.arrivalOf (vet e.chain) hash).isSome = true) : Took e f hash := by
  obtain ⟨taken, m, hall, ⟨requests, asked, htaken, rfl⟩, hf⟩ := h.midRelease hround hbound hbooks
  have hmem : hash ∈ taken := (hall hash).2 hfreed
  have hhas : requests.hasBlock hash = true := htaken.hasBlock_of_arrived hmem harrival
  rw [if_neg (List.ne_nil_of_mem hmem)] at hf
  have hcompletion := finishIfComplete_completion env (e.withBooks env round bound taken requests asked)
  rw [← hf] at hcompletion
  cases hcompletion with
  | unfinished _ => exact ⟨_, Or.inl rfl, hhas⟩
  | refused hround' _ _ =>
    cases hround'
    exact ⟨_, Or.inl rfl, hhas⟩
  | committed hround' _ _ honward _ =>
    cases hround'
    exact ⟨_, Or.inr ⟨_, honward.roundOnly.attempts⟩, hhas⟩

end

/-- **The order of releases leaves no trace.** Take any round that is bound to a peer, with any blocks held back in it,
and let any of those whose parent is here go, one after the other. This comes to an end, which the engine's own way of
choosing reaches, too. Whatever is chosen, it ends with the same books, the same batch handed to the chain and the same
answer to it, the same chain, and the same transactions asked for. If the blocks held back pass the checks, all that are
connected are taken, and they do pass whenever the engine begins to let go of them. -/
theorem release_order_irrelevant (env : Outlook) (hbooked : Booked e) (hround : e.round = some round)
    (hbound : round.syncPeer = some bound) :
    (∀ n f, Releases env n e f → n ≤ round.requests.heldBack.size) ∧
    EndsAt env e (e.resolveHeldBack env) ∧
    (∀ f f', EndsAt env e f → EndsAt env e f' → SameOutcome bound e f f') ∧
    ((∀ hash block, round.requests.heldBack.get? hash = some block → ∃ txids, Checked e.chain block txids) →
      ∀ f, EndsAt env e f → ∀ hash, round.requests.Connected e.chain.knows hash → Took e f hash) ∧
    ∀ c, AtRelease c env e →
      ∀ hash block, round.requests.heldBack.get? hash = some block → ∃ txids, Checked e.chain block txids := by
  have hbooks := hbooked.round hround
  refine ⟨fun n f h => h.le hround hbound hbooks, ?_, fun f f' h h' => h.sameOutcome hround hbound hbooks h',
    fun hchecked f h hash hconnected => ?_, fun c h hash block => h.poised.checked hround⟩
  · exact (releaseHeldBack_released env e.heldCount hbooked (Nat.le_refl _)).1.endsAt
  · have hvet (hash block) (hheld : round.requests.heldBack.get? hash = some block) :
        (vet e.chain block).isSome = true := by
      obtain ⟨txids, hblock⟩ := hchecked hash block hheld
      rw [vet_eq_some_iff.2 hblock, Option.isSome_some]
    obtain ⟨hfreed, harrival⟩ := hconnected.freed hvet
    exact h.took hround hbound hbooks hfreed harrival

end Engine

/-! ## A fork that waits for its stem -/

namespace Sample

def stem : FilteredBlock := child genesisHash 4

def gift : Transaction := { payment with lockTime := 1 }

/-- A block on top of the stem, with a proof of all its transactions. -/
def branch (txids : List Digest) (nonce : UInt32) : FilteredBlock :=
  .ofTxids { genesis with previous := stem.hash, nonce } txids (txids.map fun _ => true)

def thick : FilteredBlock := branch [payment.txid, gift.txid] 0

def thin : FilteredBlock := branch [gift.txid] 1

/-- Both branches come before the stem. -/
def budding : List Turn :=
  [.call outlook (.upkeep 0), .call outlook (.offer peer ([stem, thick, thin].map (.filteredBlock ·.hash))),
   .call outlook (.deliver peer (.block thick)), .call outlook (.deliver peer (.block thin))]

/-- The stem has come. -/
def sprung : Engine := (engine.run budding).opening outlook (.deliver peer (.block stem))

/-- The block is held back, and its parent is here. -/
def isFree (e : Engine) (block : FilteredBlock) : Bool :=
  e.round.any fun r => r.syncPeer = some peer && r.requests.heldBack.get? block.hash = some block &&
    r.requests.isReady e.chain.knows block

/-- The block is let go, whatever else could be. -/
def letGo (e : Engine) (block : FilteredBlock) : Engine :=
  match e.round with
  | none => e
  | some round =>
    let requests := { round.requests with heldBack := round.requests.heldBack.erase block.hash }
    ({ e with round := some { round with requests } }.processBlock outlook peer block).1

def thinFirst : Engine := letGo (letGo sprung thin) thick

def thickFirst : Engine := letGo (letGo sprung thick) thin

theorem isFree_sprung :
    (isFree sprung thin && isFree (letGo sprung thin) thick &&
      isFree sprung thick && isFree (letGo sprung thick) thin &&
      [thinFirst, thickFirst].all fun e => e.round.all fun r => r.requests.heldBack.size = 0) = true ∧
      thinFirst.commands.length = thickFirst.commands.length + 1 := by
  decide +kernel

theorem release_of_isFree {e : Engine} {block : FilteredBlock} (h : isFree e block = true) :
    ∃ round, e.round = some round ∧ round.syncPeer = some peer ∧
      round.requests.Connected e.chain.knows block.hash ∧ Engine.Release outlook e (letGo e block) := by
  obtain ⟨round, hround, hfacts⟩ := (Option.any_eq_true _ _).1 h
  simp only [Bool.and_eq_true, decide_eq_true_eq] at hfacts
  obtain ⟨⟨hbound, hheld⟩, hready⟩ := hfacts
  refine ⟨round, hround, hbound, .ready hheld hready, ?_⟩
  have hnext : Engine.Release outlook e _ := .mk hround hbound hheld hready
  simp only [letGo, hround]
  exact hnext

/-- Nothing is held back after two releases. -/
theorem endsAt_of_isFree {e : Engine} {block block' : FilteredBlock} (h : isFree e block = true)
    (h' : isFree (letGo e block) block' = true)
    (hempty : ((letGo (letGo e block) block').round.all fun r => r.requests.heldBack.size = 0) = true) :
    Engine.EndsAt outlook e (letGo (letGo e block) block') := by
  obtain ⟨-, -, -, -, hfirst⟩ := release_of_isFree h
  obtain ⟨-, -, -, -, hsecond⟩ := release_of_isFree h'
  refine ⟨⟨2, .more (.more .none hfirst) hsecond⟩, fun f hrelease => ?_⟩
  obtain ⟨hround, -, hheld, -⟩ := hrelease
  rw [hround, Option.all_some, decide_eq_true_eq] at hempty
  rw [Table.get?_of_size_eq_zero hempty] at hheld
  cases hheld

end Sample

namespace Engine

open Sample

/-- The two branches share a transaction. If the thick one goes first, one message asks for all transactions, and
otherwise it takes two. All else ends alike. -/
theorem release_order_irrelevant_sprung :
    ∃ round, sprung.round = some round ∧ round.syncPeer = some peer ∧
      round.requests.Connected sprung.chain.knows thin.hash ∧ EndsAt outlook sprung thinFirst ∧
      EndsAt outlook sprung thickFirst ∧ thinFirst.commands.length = thickFirst.commands.length + 1 ∧
      SameOutcome peer sprung thinFirst thickFirst ∧ Took sprung thinFirst thin.hash := by
  have hreachable : Reachable (.ofGenesis genesis) (engine.run budding) := ⟨engine, budding, isNew_engine, rfl⟩
  have hrelease : AtRelease (.ofGenesis genesis) outlook sprung := .opening hreachable rfl
  obtain ⟨hfacts, hmessages⟩ := isFree_sprung
  simp only [Bool.and_eq_true, List.all_cons, List.all_nil, and_true] at hfacts
  obtain ⟨⟨⟨⟨hthin, hthick'⟩, hthick⟩, hthin'⟩, hempty, hempty'⟩ := hfacts
  obtain ⟨round, hround, hbound, hconnected, -⟩ := release_of_isFree hthin
  have hends : EndsAt outlook sprung thinFirst := endsAt_of_isFree hthin hthick' hempty
  have hends' : EndsAt outlook sprung thickFirst := endsAt_of_isFree hthick hthin' hempty'
  obtain ⟨-, -, hsame, htook, hpass⟩ := release_order_irrelevant outlook hrelease.poised.booked hround hbound
  exact ⟨round, hround, hbound, hconnected, hends, hends', hmessages, hsame _ _ hends hends',
    htook (hpass _ hrelease) _ hends _ hconnected⟩

end Engine
end LightClient
