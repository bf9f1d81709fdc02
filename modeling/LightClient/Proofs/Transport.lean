import LightClient.Client
import LightClient.Proofs.Engine.Moves
/-!
# What becomes of commands

`carryOut` looks up once who is connected. On a transport that loses connections only when it is told to drop a peer
(`Steady`), this is as good as looking it up before every command: what is known at any moment is what a look-up would
find (`Current`).

So it is known from the start what will be done (`deeds_carryOut`): each command is carried out in its turn, but for the
messages to peers that were not connected or that an earlier command dropped.
-/
namespace LightClient

def Command.messageTo (peer : PeerId) : Command → Option Message
  | .send receiver message => if receiver = peer then some message else none
  | .broadcast _ | .disconnect _ | .bind _ | .announce _ => none

def Deed.messageTo {ρ : Type} (peer : PeerId) : Deed ρ → Option Message
  | .send receiver _ message => if receiver = peer then some message else none
  | .broadcast _ | .disconnect _ | .bind _ | .announce _ => none

def Command.dropsPeer : Command → Bool
  | .disconnect _ => true
  | .send _ _ | .broadcast _ | .bind _ | .announce _ => false

def Deed.dropsPeer {ρ : Type} : Deed ρ → Bool
  | .disconnect _ => true
  | .send _ _ _ | .broadcast _ | .bind _ | .announce _ => false

namespace Transport

variable {σ ρ : Type} {t : Transport σ ρ}

/-- Who is connected changes only when a peer is dropped, and then by that peer, at once. -/
structure Steady (t : Transport σ ρ) : Prop where
  dropped (s : σ) (peer id : PeerId) : (t.connected (t.act s (.disconnect peer))).get? id =
    if id = peer then none else (t.connected s).get? id
  kept (s : σ) {deed : Deed ρ} (h : deed.dropsPeer = false) (id : PeerId) :
    (t.connected (t.act s deed)).get? id = (t.connected s).get? id

/-- Carries out one command after looking up who is connected now. -/
def carryOutAnew (t : Transport σ ρ) (x : Execution σ ρ) (command : Command) : Execution σ ρ :=
  t.carryOutOne { x with known := none } command

/-- What a command comes to if the given commands came before it and the given connections were there at first. -/
def due (connected : PeerId → Option ρ) (earlier : List Command) : Command → Option (Deed ρ)
  | .send peer message =>
    if .disconnect peer ∈ earlier then none else (connected peer).map (.send peer · message)
  | .broadcast message => some (.broadcast message)
  | .disconnect peer => some (.disconnect peer)
  | .bind peer => some (.bind peer)
  | .announce height => some (.announce height)

/-- What all commands come to, one after the other, if the given ones came before them. -/
def dueAll (connected : PeerId → Option ρ) : (earlier : List Command) → List Command → List (Deed ρ)
  | _, [] => []
  | earlier, command :: commands =>
    (due connected earlier command).toList ++ dueAll connected (earlier ++ [command]) commands

/-! ## What is known -/

/-- What is known of who is connected is still so. -/
def Current (t : Transport σ ρ) (x : Execution σ ρ) : Prop :=
  ∀ known, x.known = some known → ∀ id, known.get? id = (t.connected x.state).get? id

theorem Current.perform (hsteady : t.Steady) {x : Execution σ ρ} (h : t.Current x) {deed : Deed ρ}
    (hdeed : deed.dropsPeer = false) : t.Current (t.perform x deed) := by
  intro known hknown id
  rw [Transport.perform, hsteady.kept x.state hdeed]
  exact h known hknown id

theorem Current.drop (hsteady : t.Steady) {x : Execution σ ρ} (h : t.Current x) (peer : PeerId) :
    t.Current (t.perform { x with known := x.known.map (·.erase peer) } (.disconnect peer)) := by
  intro known hknown id
  obtain ⟨known', hknown', rfl⟩ := Option.map_eq_some_iff.1 hknown
  rw [Table.get?_erase, h known' hknown' id]
  exact (hsteady.dropped x.state peer id).symm

/-- **One command** does the same whether who is connected was looked up before or is now, and what is known of it
afterwards is still so. -/
theorem Current.carryOutOne (hsteady : t.Steady) {x : Execution σ ρ} (h : t.Current x) (command : Command) :
    t.Current (t.carryOutOne x command) ∧ (t.carryOutOne x command).state = (t.carryOutAnew x command).state ∧
      (t.carryOutOne x command).deeds = (t.carryOutAnew x command).deeds := by
  cases command with
  | send peer message =>
    have hlook : ∀ id, (x.known.getD (t.connected x.state)).get? id = (t.connected x.state).get? id := by
      intro id
      cases hknown : x.known with
      | none => rfl
      | some known => exact h known hknown id
    have hcurrent : t.Current { x with known := some (x.known.getD (t.connected x.state)) } := by
      intro known hknown
      cases hknown
      exact hlook
    simp only [carryOutAnew, Transport.carryOutOne, Option.getD_none, hlook peer]
    cases (t.connected x.state).get? peer with
    | none => exact ⟨hcurrent, rfl, rfl⟩
    | some connection => exact ⟨hcurrent.perform hsteady rfl, rfl, rfl⟩
  | disconnect peer => exact ⟨h.drop hsteady peer, rfl, rfl⟩
  | broadcast message => exact ⟨h.perform hsteady rfl, rfl, rfl⟩
  | bind peer => exact ⟨h.perform hsteady rfl, rfl, rfl⟩
  | announce height => exact ⟨h.perform hsteady rfl, rfl, rfl⟩

/-- What is known does not matter if it is looked up anew. -/
theorem carryOutAnew_congr {x y : Execution σ ρ} (hstate : x.state = y.state) (hdeeds : x.deeds = y.deeds)
    (command : Command) : t.carryOutAnew x command = t.carryOutAnew y command := by
  rw [carryOutAnew, carryOutAnew, hstate, hdeeds]

theorem foldl_carryOutOne (hsteady : t.Steady) : ∀ (commands : List Command) {x y : Execution σ ρ}, t.Current x →
    x.state = y.state → x.deeds = y.deeds →
    (commands.foldl t.carryOutOne x).state = (commands.foldl t.carryOutAnew y).state ∧
      (commands.foldl t.carryOutOne x).deeds = (commands.foldl t.carryOutAnew y).deeds
  | [], _, _, _, hstate, hdeeds => ⟨hstate, hdeeds⟩
  | command :: commands, x, y, hcurrent, hstate, hdeeds => by
    obtain ⟨hcurrent', hstate', hdeeds'⟩ := hcurrent.carryOutOne hsteady command
    rw [carryOutAnew_congr hstate hdeeds command] at hstate' hdeeds'
    exact foldl_carryOutOne hsteady commands hcurrent' hstate' hdeeds'

/-! ## What is done -/

/-- Of the given connections those are left that no earlier command dropped. -/
def Left (t : Transport σ ρ) (connected : PeerId → Option ρ) (earlier : List Command) (s : σ) : Prop :=
  ∀ id, (t.connected s).get? id = if .disconnect id ∈ earlier then none else connected id

theorem Left.kept (hsteady : t.Steady) {connected : PeerId → Option ρ} {earlier : List Command} {s : σ}
    (h : t.Left connected earlier s) {deed : Deed ρ} (hdeed : deed.dropsPeer = false) :
    t.Left connected earlier (t.act s deed) := by
  intro id
  rw [hsteady.kept s hdeed, h id]

theorem Left.concat {connected : PeerId → Option ρ} {earlier : List Command} {s : σ} (h : t.Left connected earlier s)
    {command : Command} (hcommand : command.dropsPeer = false) :
    t.Left connected (earlier ++ [command]) s := by
  intro id
  have hne : Command.disconnect id ≠ command := by
    rintro rfl
    cases hcommand
  simp only [h id, List.mem_append, List.mem_singleton, hne, or_false]

theorem Left.drop (hsteady : t.Steady) {connected : PeerId → Option ρ} {earlier : List Command} {s : σ}
    (h : t.Left connected earlier s) (peer : PeerId) :
    t.Left connected (earlier ++ [.disconnect peer]) (t.act s (.disconnect peer)) := by
  intro id
  rw [hsteady.dropped s peer id, h id]
  by_cases hid : id = peer <;> simp [hid]

/-- **One command** comes to what it is due. -/
theorem carryOutAnew_due (hsteady : t.Steady) {connected : PeerId → Option ρ} {earlier : List Command}
    {x : Execution σ ρ} (h : t.Left connected earlier x.state) (command : Command) :
    t.Left connected (earlier ++ [command]) (t.carryOutAnew x command).state ∧
      (t.carryOutAnew x command).deeds = x.deeds ++ (due connected earlier command).toList ∧
      (t.carryOutAnew x command).state = (due connected earlier command).toList.foldl t.act x.state := by
  have hother {deed : Deed ρ} (hdeed : deed.dropsPeer = false) {command : Command}
      (hcommand : command.dropsPeer = false) :
      t.Left connected (earlier ++ [command]) (t.act x.state deed) := (h.kept hsteady hdeed).concat hcommand
  cases command with
  | send peer message =>
    have hdue : due connected earlier (.send peer message) =
        ((t.connected x.state).get? peer).map (.send peer · message) := by
      rw [due, h peer]
      split <;> rfl
    simp only [hdue, carryOutAnew, carryOutOne, Option.getD_none]
    cases (t.connected x.state).get? peer with
    | none => exact ⟨h.concat rfl, (List.append_nil _).symm, rfl⟩
    | some connection => exact ⟨hother rfl rfl, rfl, rfl⟩
  | disconnect peer => exact ⟨h.drop hsteady peer, rfl, rfl⟩
  | broadcast message => exact ⟨hother rfl rfl, rfl, rfl⟩
  | bind peer => exact ⟨hother rfl rfl, rfl, rfl⟩
  | announce height => exact ⟨hother rfl rfl, rfl, rfl⟩

theorem foldl_carryOutAnew (hsteady : t.Steady) (connected : PeerId → Option ρ) : ∀ (commands : List Command)
    {earlier : List Command} {x : Execution σ ρ}, t.Left connected earlier x.state →
    (commands.foldl t.carryOutAnew x).deeds = x.deeds ++ dueAll connected earlier commands ∧
      (commands.foldl t.carryOutAnew x).state = (dueAll connected earlier commands).foldl t.act x.state
  | [], _, _, _ => ⟨(List.append_nil _).symm, rfl⟩
  | command :: commands, earlier, x, h => by
    obtain ⟨hleft, hdeeds, hstate⟩ := carryOutAnew_due hsteady h command
    obtain ⟨hdeeds', hstate'⟩ := foldl_carryOutAnew hsteady connected commands hleft
    rw [List.foldl_cons, hdeeds', hstate', hdeeds, hstate, dueAll, List.append_assoc, List.foldl_append]
    exact ⟨rfl, rfl⟩

/-! ## Messages -/

variable {connected : PeerId → Option ρ}

/-- A command to a connected peer leaves a deed with the same message. -/
theorem messageTo_due (earlier : List Command) (command : Command) (peer : PeerId) :
    (due connected earlier command).bind (Deed.messageTo peer) =
      if .disconnect peer ∈ earlier ∨ connected peer = none then none else command.messageTo peer := by
  cases command with
  | send receiver message =>
    unfold due Command.messageTo
    by_cases hreceiver : receiver = peer
    · subst hreceiver
      by_cases hdropped : .disconnect receiver ∈ earlier
      · simp [hdropped]
      · cases hconnected : connected receiver <;> simp [hdropped, hconnected, Deed.messageTo]
    · simp only [if_neg hreceiver, ite_self]
      split
      · rfl
      · cases connected receiver <;> simp [Deed.messageTo, hreceiver]
  | broadcast message => simp [due, Command.messageTo, Deed.messageTo]
  | disconnect id => simp [due, Command.messageTo, Deed.messageTo]
  | bind id => simp [due, Command.messageTo, Deed.messageTo]
  | announce height => simp [due, Command.messageTo, Deed.messageTo]

/-- **The messages that a peer gets** are those that were to be sent to it before it was dropped. -/
theorem filterMap_dueAll (peer : PeerId) : ∀ (commands earlier : List Command),
    (dueAll connected earlier commands).filterMap (Deed.messageTo peer) =
      if .disconnect peer ∈ earlier ∨ connected peer = none then []
      else (commands.takeWhile fun c => c ≠ .disconnect peer).filterMap (Command.messageTo peer)
  | [], earlier => by simp [dueAll]
  | command :: commands, earlier => by
    have hfirst : (due connected earlier command).toList.filterMap (Deed.messageTo peer) =
        ((due connected earlier command).bind (Deed.messageTo peer)).toList := by
      cases due connected earlier command with
      | none => rfl
      | some deed =>
        rw [Option.toList_some, List.filterMap_cons, List.filterMap_nil, Option.bind_some]
        cases deed.messageTo peer <;> rfl
    rw [dueAll, List.filterMap_append, filterMap_dueAll peer commands, hfirst, messageTo_due]
    by_cases hdrop : command = .disconnect peer
    · simp [hdrop, Command.messageTo]
    · have hmem : .disconnect peer ∈ earlier ++ [command] ↔ .disconnect peer ∈ earlier := by
        simp [Ne.symm hdrop]
      simp only [hmem]
      rw [List.takeWhile_cons_of_pos (by simpa using hdrop)]
      split
      · rfl
      · rw [List.filterMap_cons]
        cases command.messageTo peer <;> rfl

theorem due_eq_disconnect {earlier : List Command} {command : Command} {peer : PeerId}
    (h : due connected earlier command = some (.disconnect peer)) : command = .disconnect peer := by
  cases command with
  | send receiver message =>
    rw [due] at h
    split at h
    · cases h
    · obtain ⟨connection, -, hdeed⟩ := Option.map_eq_some_iff.1 h
      cases hdeed
  | disconnect id =>
    cases h
    rfl
  | broadcast _ | bind _ | announce _ => cases h

/-- What is done after a peer was dropped is what the commands after that come to. -/
theorem exists_rest_of_dueAll {peer : PeerId} {rest : List (Deed ρ)} : ∀ (commands : List Command)
    {earlier : List Command} {before : List (Deed ρ)},
    dueAll connected earlier commands = before ++ .disconnect peer :: rest →
    ∃ earlier' commands', .disconnect peer ∈ earlier' ∧ rest = dueAll connected earlier' commands'
  | [], _, before, h => by simp [dueAll] at h
  | command :: commands, earlier, before, h => by
    rw [dueAll] at h
    cases hdue : due connected earlier command with
    | none =>
      rw [hdue] at h
      exact exists_rest_of_dueAll commands h
    | some deed =>
      rw [hdue, Option.toList_some, List.singleton_append] at h
      cases before with
      | nil =>
        obtain ⟨hdeed, hrest⟩ := List.cons.inj h
        rw [hdeed] at hdue
        rw [due_eq_disconnect hdue] at hrest
        exact ⟨_, commands, List.mem_append_right _ List.mem_cons_self, hrest.symm⟩
      | cons first before => exact exists_rest_of_dueAll commands (List.cons.inj h).2

/-- **One look-up is as good as many.** On a steady transport the commands are carried out as if who is connected were
looked up before each of them. What is done is what each command in its turn comes to, given who was connected at first
and whom the earlier commands dropped. No message goes to a peer after it was dropped; a peer that was connected gets
the messages that were to be sent to it before that, each once and in their order, and another peer gets none. -/
theorem carryOut_exact (hsteady : t.Steady) (s : σ) (commands : List Command) :
    let x := t.carryOut s commands
    let anew := commands.foldl t.carryOutAnew ⟨s, none, []⟩
    let connected := (t.connected s).get?
    (x.state = anew.state ∧ x.deeds = anew.deeds) ∧
    x.state = x.deeds.foldl t.act s ∧ x.deeds = dueAll connected [] commands ∧
    (∀ before peer rest, x.deeds = before ++ .disconnect peer :: rest →
      rest.filterMap (Deed.messageTo peer) = []) ∧
    ∀ peer, x.deeds.filterMap (Deed.messageTo peer) =
      if connected peer = none then []
      else (commands.takeWhile fun c => c ≠ .disconnect peer).filterMap (Command.messageTo peer) := by
  intro x anew connected
  have hcurrent : t.Current ⟨s, none, []⟩ := fun known hknown => by cases hknown
  have hleft : t.Left connected [] s := fun id => by rw [if_neg List.not_mem_nil]
  obtain ⟨hstate, hdeeds⟩ := foldl_carryOutOne hsteady commands hcurrent rfl rfl
  obtain ⟨hdue, hact⟩ := foldl_carryOutAnew hsteady connected commands (x := ⟨s, none, []⟩) hleft
  have hdeeds' : x.deeds = dueAll connected [] commands := hdeeds.trans hdue
  refine ⟨⟨hstate, hdeeds⟩, ?_, hdeeds', fun before peer rest h => ?_, fun peer => ?_⟩
  · rw [hdeeds']
    exact hstate.trans hact
  · rw [hdeeds'] at h
    obtain ⟨earlier', commands', hdropped, rfl⟩ := exists_rest_of_dueAll commands h
    rw [filterMap_dueAll, if_pos (Or.inl hdropped)]
  · rw [hdeeds', filterMap_dueAll]
    simp only [List.not_mem_nil, false_or]

end Transport

/-! ## The client's connections -/

/-- Taking the peers of one identity off the list takes that identity out of the table. -/
theorem Client.get?_foldl_insert_filter (peer : PeerId) : ∀ (peers : List Peer) {t t' : Table PeerId Peer},
    (∀ id, t'.get? id = if id = peer then none else t.get? id) → ∀ id,
    ((peers.filter fun p => p.id ≠ peer).foldl (fun t p => t.insert p.id p) t').get? id =
      if id = peer then none else (peers.foldl (fun t p => t.insert p.id p) t).get? id
  | [], _, _, h => h
  | p :: peers, t, t', h => by
    by_cases hp : p.id = peer
    · rw [List.filter_cons_of_neg (by simpa using hp)]
      refine Client.get?_foldl_insert_filter peer peers fun id => ?_
      rw [h id, Table.get?_insert, hp]
      split <;> rfl
    · rw [List.filter_cons_of_pos (by simpa using hp)]
      refine Client.get?_foldl_insert_filter peer peers fun id => ?_
      rw [Table.get?_insert, Table.get?_insert, h id]
      by_cases hid : id = p.id
      · simp [hid, hp]
      · simp [hid]

theorem Contacts.connected_disconnect (cs : Contacts) (peer : PeerId) :
    (cs.disconnect peer).connected = cs.connected.filter fun p => p.id ≠ peer := by
  simp only [Contacts.disconnect, Contacts.connected]
  induction cs with
  | nil => rfl
  | cons c cs ih =>
    rw [List.map_cons]
    by_cases hc : c.peer.id = peer
    · cases hconnected : c.isConnected <;> simp [hc, hconnected, ih]
    · cases hconnected : c.isConnected <;> simp [hc, hconnected, ih]

theorem Client.steady_transport : Client.transport.Steady where
  dropped c peer id := by
    have hconnections : Client.connections (c.disconnect peer) =
        (c.contacts.connected.filter fun p => p.id ≠ peer).foldl (fun t p => t.insert p.id p) ∅ := by
      rw [← Contacts.connected_disconnect]
      rfl
    have hempty : ∀ id, (∅ : Table PeerId Peer).get? id = if id = peer then none else (∅ : Table PeerId Peer).get? id :=
      fun id => by rw [Table.get?_empty, ite_self]
    exact (congrArg (Table.get? · id) hconnections).trans (Client.get?_foldl_insert_filter peer _ hempty id)
  kept c deed h id := by
    cases deed with
    | disconnect _ => cases h
    | send _ _ _ | broadcast _ | bind _ | announce _ => rfl

namespace Sample

def otherPeer : PeerId := ⟨2⟩

/-- A client with two connections. -/
def client : Client where
  settings := .default 7
  engine := engine
  contacts := [⟨⟨peer, 5, .established, 0⟩, true⟩, ⟨⟨otherPeer, 5, .established, 0⟩, true⟩]
  untilPass := none
  effects := []

/-- A peer is dropped between two messages to it. -/
def farewell : List Command :=
  [.send peer (.ping 1), .disconnect peer, .send otherPeer (.ping 2), .send peer (.ping 3), .send otherPeer (.ping 4)]

end Sample

open Sample in
theorem Transport.carryOut_exact_farewell :
    Client.transport.Steady ∧
      (client.carryOut farewell).effects =
        [.network (.send peer (.ping 1)), .network (.disconnect peer), .network (.send otherPeer (.ping 2)),
          .network (.send otherPeer (.ping 4))] ∧
      (Client.transport.carryOut client farewell).deeds.filterMap (Deed.messageTo peer) = [.ping 1] ∧
      (Client.transport.carryOut client farewell).deeds.filterMap (Deed.messageTo otherPeer) = [.ping 2, .ping 4] := by
  obtain ⟨-, hstate, hdeeds, -, hmessages⟩ := carryOut_exact Client.steady_transport client farewell
  refine ⟨Client.steady_transport, ?_, (hmessages peer).trans ?_, (hmessages otherPeer).trans ?_⟩
  · rw [Client.carryOut, hstate, hdeeds]
    rfl
  · decide
  · decide

end LightClient
