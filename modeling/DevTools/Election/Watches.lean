import DevTools.Election.Replay

/-!
# The watches of the order service

A watch of ZooKeeper is one notification: it is set by `zoo_exists` or `zoo_get_children`, and the
first change it is for removes it. `zookeeper_helper` has to set it again each time. Two threads of
a process are at work on that:

* the election thread (`start_leader_election`) connects, creates its node, calls
  `add_zookeeper_event` for the watch node, which adds a handler and sets the watches, and then
  reads the children (`test_event`);
* the thread of the ZooKeeper client runs `watcher` for one notification after the other. A child
  event goes to `handle_event`, which sets the watch and then calls `child_event`; a new connection
  makes `re_set_event` set every watch, and call `connected_event` for each.

Both hold the helper's lock while they work on its lists, and `watcher` holds it to its end. The
calls of the two threads, changes of the nodes by anybody (the nodes that the helper itself creates
and deletes included), losses of the connection and expiries of the session interleave freely.
`view` is a ghost: the children that the process has read last.
-/

namespace DevTools.Election.Watches

open Register (lastSlash Mode)

/-! ## The state -/

inductive EventType
  | created
  | deleted
  | changed
  | child
  deriving DecidableEq, Repr

/-- The states that come with `ZOO_SESSION_EVENT`. -/
inductive SessionState
  | connecting
  | connected
  | expired
  | authFailed
  deriving DecidableEq, Repr

/-- A notification that is not delivered yet. -/
inductive Notice
  | session (state : SessionState)
  | node (type : EventType) (path : Bytes)
  deriving DecidableEq

/-- A callback; `reader` stands for `child_event` and `connected_event`, which read the children of
the watch node. -/
inductive ZkEventFunc
  | null
  | reader
  deriving DecidableEq, Repr

/-- What a handle can do: `dead` is one that was closed, or whose session has expired. -/
inductive Handle
  | connecting
  | connected
  | dead
  deriving DecidableEq, Repr

/-- Where the thread of `watcher` stands. -/
inductive WatcherPc
  | idle
  /-- at the start of `handle_event` -/
  | handling (e : ZkEvent ZkEventFunc) (type : EventType) (path : Bytes)
  /-- before the callback -/
  | calling (f : ZkEventFunc)
  /-- in the loop that creates the nodes of `zoo_path_list` -/
  | replaying
  /-- in `re_set_event`, before these entries -/
  | resetting (todo : List (EventPair ZkEventFunc))
  | resettingChild (p : EventPair ZkEventFunc) (todo : List (EventPair ZkEventFunc))
  | callingConnected (p : EventPair ZkEventFunc) (todo : List (EventPair ZkEventFunc))
  /-- before `re_connect` -/
  | reconnecting
  deriving DecidableEq

/-- Where `start_leader_election` stands. -/
inductive ElectionPc
  | registering
  | waiting
  | joining
  | adding
  /-- in `add_zookeeper_event`, before `zoo_exists` -/
  | settingExists
  /-- before `zoo_get_children` -/
  | settingChild
  /-- before the first `test_event` -/
  | testing
  | looping
  deriving DecidableEq, Repr

structure World where
  nodes : List Bytes
  /-- the watches of `zoo_exists` -/
  existsWatches : List Bytes
  childWatches : List Bytes
  pending : List Notice
  handle : Handle
  helper : ZookeeperHelper ZkEventFunc
  election_uuid : Bytes
  mode : Mode
  reconnection_flag : Bool
  watcher : WatcherPc
  election : ElectionPc
  /-- ghost: the children that were read last -/
  view : Option (List Bytes)
  deriving DecidableEq

/-- The path of the node above. -/
def parentOf (path : Bytes) : Bytes := path.take ((lastSlash path).getD 0)

namespace World

def children (s : World) (path : Bytes) : List Bytes := s.nodes.filter (parentOf · = path)

/-! ## ZooKeeper -/

def notify (s : World) (n : Notice) : World := { s with pending := s.pending ++ [n] }

/-- The child watch of `path` is triggered. -/
def fireChild (s : World) (path : Bytes) : World :=
  if path ∈ s.childWatches then
    { s with childWatches := s.childWatches.filter (· ≠ path) }.notify (.node .child path)
  else s

/-- The watch of `zoo_exists` on `path` is triggered. -/
def fireExists (s : World) (type : EventType) (path : Bytes) : World :=
  if path ∈ s.existsWatches then
    { s with existsWatches := s.existsWatches.filter (· ≠ path) }.notify (.node type path)
  else s

/-- A node is deleted: both watches on it are triggered, with one notification. -/
def fireDeleted (s : World) (path : Bytes) : World :=
  if path ∈ s.existsWatches ∨ path ∈ s.childWatches then
    { s with
      existsWatches := s.existsWatches.filter (· ≠ path)
      childWatches := s.childWatches.filter (· ≠ path) }.notify (.node .deleted path)
  else s

def create (s : World) (path : Bytes) : World :=
  ({ s with nodes := path :: s.nodes }.fireExists .created path).fireChild (parentOf path)

def delete (s : World) (path : Bytes) : World :=
  ({ s with nodes := s.nodes.filter (· ≠ path) }.fireDeleted path).fireChild (parentOf path)

inductive Answer
  | ok
  | nonode
  | error
  deriving DecidableEq, Repr

/-- `zoo_exists(zh, path, 1, NULL)`: the watch is also set when there is no node. -/
def zooExists (s : World) (path : Bytes) : Answer × World :=
  if s.handle = .connected then
    (if path ∈ s.nodes then .ok else .nonode,
      { s with existsWatches := path :: s.existsWatches })
  else (.error, s)

/-- `zoo_get_children(zh, path, 1, NULL)`. -/
def zooGetChildren (s : World) (path : Bytes) : Answer × World :=
  if s.handle = .connected then
    if path ∈ s.nodes then (.ok, { s with childWatches := path :: s.childWatches })
    else (.nonode, s)
  else (.error, s)

/-! ## The helper -/

/-- `add_tmp_node(zk_helper, path, "1", ZOO_EPHEMERAL, NULL, 0)` for a node that is not there, and
whether it returns `ZOK`. -/
def addTmpNode (s : World) (path : Bytes) (made : Bool) : Bool × World :=
  let r := s.helper.addTmpNode path [49] 1 made
  let s := { s with helper := r.2, mode := .register }
  if r.1 = 0 then (true, s.create (path.take 255)) else (false, s)

/-- The `zoo_exists` of `add_zookeeper_event` and `re_set_event`, and whether it comes out. -/
def setExists (s : World) (path : Bytes) (made : Bool) : Bool × World :=
  match s.zooExists path with
  | (.ok, s) => (true, s)
  | (.nonode, s) => s.addTmpNode path made
  | (.error, s) => (false, s)

/-- The `zoo_get_children` of `add_zookeeper_event` and `re_set_event`. -/
def setChild (s : World) (path : Bytes) (made : Bool) : Bool × World :=
  match s.zooGetChildren path with
  | (.ok, s) => (true, s)
  | (.nonode, s) => s.addTmpNode path made
  | (.error, s) => (false, s)

/-- The call of `zoo_helper_get_children` in a callback, on the watch node `w`. -/
def read (s : World) (w : Bytes) : World :=
  { s with view := if s.handle = .connected ∧ w ∈ s.nodes then some (s.children w) else none }

def call (s : World) (w : Bytes) : ZkEventFunc → World
  | .null => s
  | .reader => s.read w

end World

def createdEvent : BitVec 32 := 2
def deletedEvent : BitVec 32 := 4
def changedEvent : BitVec 32 := 8
def childEvent : BitVec 32 := 16

/-- `(event & CREATED_EVENT) || (event & DELETED_EVENT) || (event & CHANGED_EVENT)` -/
def wantsExists (mask : BitVec 32) : Bool :=
  mask &&& createdEvent ≠ 0 || mask &&& deletedEvent ≠ 0 || mask &&& changedEvent ≠ 0

def wantsChild (mask : BitVec 32) : Bool := mask &&& childEvent ≠ 0

/-- The bit of the mask and the callback that an event is for. -/
def slot (e : ZkEvent ZkEventFunc) : EventType → BitVec 32 × ZkEventFunc
  | .created => (createdEvent, e.created_event)
  | .changed => (changedEvent, e.changed_event)
  | .child => (childEvent, e.child_event)
  | .deleted => (deletedEvent, e.deleted_event)

namespace World

/-- `handle_event` up to the callback: the watch is set again, whatever comes of it. -/
def handleEvent (s : World) (e : ZkEvent ZkEventFunc) (type : EventType) (path : Bytes) : World :=
  if e.eventmask &&& (slot e type).1 ≠ 0 then
    let s := match type with
      | .child => (s.zooGetChildren path).2
      | _ => (s.zooExists path).2
    { s with watcher := .calling (slot e type).2 }
  else { s with watcher := .idle }

/-- `zookeeper_init`: a new handle has no watches. -/
def init (s : World) (ok : Bool) : World :=
  { s with
    handle := if ok then .connecting else .dead
    existsWatches := []
    childWatches := [] }

/-- `watcher` on a notification. -/
def dispatch (s : World) : Notice → World
  | .session .connected =>
    { s with watcher := if s.mode = .register ∧ s.reconnection_flag then .replaying
      else .resetting s.helper.zoo_event_list }
  | .session .authFailed => { s with handle := .dead, existsWatches := [], childWatches := [] }
  | .session .expired => { s with watcher := .reconnecting }
  | .session .connecting => s
  | .node type path =>
    match s.helper.zoo_event_list.find? (·.key = path) with
    | some p => { s with watcher := .handling p.value type path }
    | none => s

/-- The next call of the thread of `watcher`. `r` is the result of a call whose outcome is open. -/
def watcherStep (w : Bytes) (s : World) (r : Bool) : Option World :=
  match s.watcher with
  | .idle => none
  | .handling e type path => some (s.handleEvent e type path)
  | .calling f => some { s.call w f with watcher := .idle }
  | .replaying =>
    some { s with reconnection_flag := false, watcher := .resetting s.helper.zoo_event_list }
  | .resetting [] => some { s with watcher := .idle }
  | .resetting (p :: todo) =>
    if wantsExists p.value.eventmask then
      let (ok, s) := s.setExists p.key r
      some { s with watcher := if ok then .resettingChild p todo else .resetting todo }
    else some { s with watcher := .resettingChild p todo }
  | .resettingChild p todo =>
    if wantsChild p.value.eventmask then
      let (ok, s) := s.setChild p.key r
      some { s with watcher := if ok then .callingConnected p todo else .resetting todo }
    else some { s with watcher := .callingConnected p todo }
  | .callingConnected p todo =>
    -- `connected_event` is called without a look at the pointer
    if p.value.connected_event = .null then none
    else some { s.call w p.value.connected_event with watcher := .resetting todo }
  | .reconnecting => some { s.init r with reconnection_flag := true, watcher := .idle }

/-- The handler of `start_leader_election`, before `add_zookeeper_event` puts the events in. -/
def handler : ZkEvent ZkEventFunc :=
  { eventmask := 0
    connected_event := .reader
    changed_event := .null
    child_event := .reader
    created_event := .null
    deleted_event := .null
    not_watching_event := .null }

/-- The next call of `start_leader_election`; one that fails starts it over. -/
def electionStep (w : Bytes) (s : World) (r : Bool) : Option World :=
  match s.election with
  | .registering =>
    some { s.init r with mode := .connection, election := if r then .waiting else .registering }
  | .waiting =>
    if r then
      if s.handle = .connected then some { s with election := .joining } else none
    else some { s with election := .registering }
  | .joining =>
    if s.watcher ≠ .idle then none
    else if r then
      -- ZooKeeper creates no node below one that is not there
      if s.handle = .connected ∧ w ∈ s.nodes then
        some { s with
          helper := (s.helper.addTmpNode (w ++ [47, 49]) s.election_uuid 3 true).2
          mode := .register
          election := .adding }
      else none
    else some { s with mode := .register, election := .registering }
  | .adding =>
    if s.watcher ≠ .idle then none
    else some { s with
      helper := s.helper.addEvent (childEvent ||| createdEvent ||| deletedEvent) w handler
      election := .settingExists }
  | .settingExists =>
    let (ok, s) := s.setExists w r
    some { s with election := if ok then .settingChild else .registering }
  | .settingChild =>
    let (ok, s) := s.setChild w r
    some { s with election := if ok then .testing else .registering }
  | .testing | .looping =>
    if s.watcher ≠ .idle then none
    else if s.handle = .connected ∧ w ∈ s.nodes then some { s.read w with election := .looping }
    else some { s with election := .looping }

end World

/-! ## The system -/

inductive Act
  | create (path : Bytes)
  | delete (path : Bytes)
  | change (path : Bytes)
  | connect
  /-- the connection is lost; the client keeps these watches -/
  | disconnect (kept : Bytes → Bool)
  | expire
  | authFail
  /-- a notification of an older handle -/
  | stray (n : Notice)
  | deliver
  | watcher (r : Bool)
  | election (r : Bool)

namespace World

def next (w : Bytes) (s : World) : Act → Option World
  | .create path => if path ∈ s.nodes then none else some (s.create path)
  | .delete path => if path ∈ s.nodes then some (s.delete path) else none
  | .change path => some (s.fireExists .changed path)
  | .connect =>
    if s.handle = .connecting then
      some ({ s with handle := .connected }.notify (.session .connected))
    else none
  | .disconnect kept =>
    if s.handle = .connected then
      some ({ s with
        handle := .connecting
        existsWatches := s.existsWatches.filter kept
        childWatches := s.childWatches.filter kept }.notify (.session .connecting))
    else none
  | .expire =>
    if s.handle = .connecting then
      some ({ s with handle := .dead }.notify (.session .expired))
    else none
  | .authFail =>
    if s.handle = .connecting then
      some ({ s with handle := .dead }.notify (.session .authFailed))
    else none
  | .stray n => some (s.notify n)
  | .deliver =>
    match s.watcher, s.pending with
    | .idle, n :: rest => some ({ s with pending := rest }.dispatch n)
    | _, _ => none
  | .watcher r => s.watcherStep w r
  | .election r => s.electionStep w r

/-- A process before `start_leader_election`, on any tree. -/
def Starts (s : World) : Prop :=
  s.existsWatches = [] ∧ s.childWatches = [] ∧ s.pending = [] ∧ s.handle = .dead ∧
    s.helper = .new ∧ s.mode = .connection ∧ s.reconnection_flag = false ∧ s.watcher = .idle ∧
    s.election = .registering ∧ s.view = none

/-- One process, with the watch node `w`. -/
def system (w : Bytes) : LTS World Act where
  init := Starts
  step s a s' := s.next w a = some s'

end World

end DevTools.Election.Watches
