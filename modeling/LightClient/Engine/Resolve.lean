import LightClient.Engine.Receive
/-!
# Items that were waiting

After every call the engine goes over what it holds back: first the blocks of the round whose parent
has come, then the orphans that can be used now. Using one may free others, so it goes on until a
pass finds nothing.
-/
namespace LightClient
namespace Engine

/-- Feeds the round's blocks whose parent has come back to the engine, at most `fuel` of them. -/
def releaseHeldBack (env : Outlook) : (fuel : Nat) → Engine → Engine
  | 0, e => e
  | fuel + 1, e =>
    match e.round with
    | none => e
    | some round =>
      match round.syncPeer with
      | none => e
      | some bound =>
        match round.requests.releaseReady? e.chain.knows with
        | none => e
        | some (block, requests) =>
          let e := { e with round := some { round with requests } }
          releaseHeldBack env fuel (e.processBlock env bound block).1

/-- Every release takes one block out of those held back, so their number bounds the releases. -/
def resolveHeldBack (env : Outlook) (e : Engine) : Engine :=
  releaseHeldBack env ((e.round.map (·.requests.heldBack.size)).getD 0) e

/-- The orphan can be used now: it is a block on top of the tip or a transaction while there is no
round, or else what the round awaits from the peer that delivered it. -/
def isUsable (e : Engine) (tip : Digest) (hash : Digest) (orphan : Orphan) : Bool :=
  match e.round, orphan.item with
  | none, .block block => block.previous = tip
  | none, .tx _ => true
  | some round, .block _ =>
    round.syncPeer = some orphan.peer && round.requests.isAwaitedBlock hash
      && !round.requests.isHeldBack hash
  | some round, .tx _ =>
    round.requests.isAwaitedTx hash && round.syncPeer.all (· = orphan.peer)

def usableOrphans (e : Engine) : List Digest :=
  let tip := e.chain.tip.hash
  (e.orphans.toList.filter fun o => e.isUsable tip o.1 o.2).map Prod.fst

/-- Takes an orphan out of the pool and hands it to the engine as if it came from its peer now. -/
def useOrphan (env : Outlook) (e : Engine) (hash : Digest) : Engine :=
  match e.orphans.get? hash with
  | none => e
  | some orphan =>
    let e := { e with orphans := e.orphans.erase hash }
    match orphan.item with
    | .block block => (e.processBlock env orphan.peer block).1
    | .tx tx => (e.processTx env orphan.peer tx).1

/-- Releases what can be released and forgets the orphans that the chain has by now. -/
def settle (env : Outlook) (e : Engine) : Engine :=
  let e := e.resolveHeldBack env
  { e with orphans := e.orphans.retain fun hash o => !(o.item.isBlock && e.chain.knows hash) }

def resolvePasses (env : Outlook) : (passes : Nat) → Engine → Engine
  | 0, e => e
  | passes + 1, e =>
    let e := e.settle env
    match e.usableOrphans with
    | [] => e
    | usable => resolvePasses env passes (usable.foldl (useOrphan env) e)

/-- Uses the orphans that can be used. Every pass but the last takes one out of the pool, so one pass
more than it has room for is enough. -/
def resolveOrphans (env : Outlook) (e : Engine) : Engine :=
  resolvePasses env (e.orphans.capacity + 1) e

end Engine
end LightClient
