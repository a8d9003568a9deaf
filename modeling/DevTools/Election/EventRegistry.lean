import DevTools.Lib.Transition
import Mathlib.Algebra.Group.Nat.Defs
import Mathlib.Data.List.Nodup

/-!
# The event registry of `zookeeper_helper`

A helper keeps two singly linked lists of `ZkHelperPair`s side by side: `zoo_path_list` has the
nodes that `create_node` has created, with their data, and `zoo_event_list` has the handlers of
watched paths. `add_zookeeper_event` and `remove_zookeeper_event` look a path up in the first and
mean the second.

* `addEvent` inserts into `zoo_event_list`, unless the path is in `zoo_path_list`: then it writes
  the mask over the data of that entry.
* `removeEvent` takes the entry after the path's out of `zoo_path_list`.
* `addTmpNode` is `add_tmp_node`; the second half of `add_zookeeper_event`, which sets the watch,
  touches the lists only by calling it.

**Theorem (`registered_of_fresh`).** In every run in which both operations are only called on paths
that are in neither list, the event list is a map from paths to handlers, and every operation does
to it what its name says. On other paths they do not: `not_registered` adds a path twice.
-/

namespace DevTools.Election

/-- A C string, without its terminator. -/
abbrev Bytes := List UInt8

instance : LawfulBEq Bytes := inferInstanceAs (LawfulBEq (List UInt8))

/-- A handler: the events it is for, and what to call (`φ`) on each of them. -/
structure ZkEvent (φ : Type) where
  eventmask : BitVec 32
  connected_event : φ
  changed_event : φ
  child_event : φ
  created_event : φ
  deleted_event : φ
  not_watching_event : φ
  deriving DecidableEq

/-- A `ZkHelperPair` of `zoo_path_list`; the buffer `value` has `value_len` bytes. -/
structure PathPair where
  key : Bytes
  value : Bytes
  flag : Int
  deriving DecidableEq

/-- A `ZkHelperPair` of `zoo_event_list`; the handler is a copy. -/
structure EventPair (φ : Type) where
  key : Bytes
  value : ZkEvent φ
  deriving DecidableEq

structure ZookeeperHelper (φ : Type) where
  zoo_path_list : List PathPair
  zoo_event_list : List (EventPair φ)
  deriving DecidableEq

/-! ## The operations -/

/-- The bytes of an `int` in memory. -/
def maskBytes (mask : BitVec 32) : Bytes :=
  [0, 8, 16, 24].map fun k => UInt8.ofNat (mask.toNat / 2 ^ k)

/-- `((struct ZkEvent *)p->value)->eventmask = mask`, as far as it lies inside the buffer. -/
def overwrite (mask : BitVec 32) (value : Bytes) : Bytes :=
  (maskBytes mask).take value.length ++ value.drop 4

/-- `mem_copy_value`: the buffer only ever grows. -/
def memCopyValue (old new : Bytes) : Bytes := new ++ old.drop new.length

/-- The first pair with the key is changed. -/
def updateFirst (key : Bytes) (f : PathPair → PathPair) : List PathPair → List PathPair
  | [] => []
  | p :: rest => if p.key = key then f p :: rest else p :: updateFirst key f rest

/-- `SLIST_REMOVE_AFTER` on the first pair with the key; `none` when there is nothing after it and
the macro reads through a null pointer. -/
def removeAfter (key : Bytes) : List PathPair → Option (List PathPair)
  | [] => some []
  | p :: rest =>
    if p.key = key then
      match rest with
      | [] => none
      | _ :: rest => some (p :: rest)
    else (removeAfter key rest).map (p :: ·)

namespace ZookeeperHelper

variable {φ : Type}

/-- `memset` in `create_zookeeper_helper`. -/
def new : ZookeeperHelper φ := ⟨[], []⟩

def paths (s : ZookeeperHelper φ) : List Bytes := s.zoo_path_list.map PathPair.key

def events (s : ZookeeperHelper φ) : List Bytes := s.zoo_event_list.map EventPair.key

/-- The locked section of `add_zookeeper_event`. `handle->eventmask |= event` comes first. -/
def addEvent (event : BitVec 32) (path : Bytes) (handle : ZkEvent φ) (s : ZookeeperHelper φ) :
    ZookeeperHelper φ :=
  let handle := { handle with eventmask := handle.eventmask ||| event }
  if path ∈ s.paths then
    let write (p : PathPair) := { p with value := overwrite handle.eventmask p.value }
    { s with zoo_path_list := updateFirst path write s.zoo_path_list }
  else { s with zoo_event_list := ⟨path, handle⟩ :: s.zoo_event_list }

/-- `remove_zookeeper_event`. -/
def removeEvent (path : Bytes) (s : ZookeeperHelper φ) : Option (ZookeeperHelper φ) :=
  (removeAfter path s.zoo_path_list).map fun l => { s with zoo_path_list := l }

/-- `add_tmp_node`: `created` says that `create_node` has got its node from ZooKeeper. The path is
cut to the 255 characters of `strPath`. -/
def addTmpNode (path value : Bytes) (flag : Int) (created : Bool) (s : ZookeeperHelper φ) :
    Int × ZookeeperHelper φ :=
  if path.head? ≠ some 47 then (-1, s)
  else if ¬ created then (-1, s)
  else if flag = 0 then (0, s)
  else
    let key := path.take 255
    if key ∈ s.paths then
      let copy (p : PathPair) :=
        { p with value := memCopyValue p.value (value ++ [0]), flag := flag }
      (0, { s with zoo_path_list := updateFirst key copy s.zoo_path_list })
    else (0, { s with zoo_path_list := ⟨key, value ++ [0], flag⟩ :: s.zoo_path_list })

end ZookeeperHelper

/-! ## Runs -/

inductive RegistryAct (φ : Type)
  | add (event : BitVec 32) (path : Bytes) (handle : ZkEvent φ)
  | remove (path : Bytes)
  | tmpNode (path value : Bytes) (flag : Int) (created : Bool)

namespace ZookeeperHelper

variable {φ : Type} {s s' : ZookeeperHelper φ} {a : RegistryAct φ}

def exec (s : ZookeeperHelper φ) : RegistryAct φ → Option (ZookeeperHelper φ)
  | .add event path handle => some (s.addEvent event path handle)
  | .remove path => s.removeEvent path
  | .tmpNode path value flag created => some (s.addTmpNode path value flag created).2

/-- Every operation holds the helper's lock while it works on the lists. -/
def registry : LTS (ZookeeperHelper φ) (RegistryAct φ) where
  init s := s = new
  step s a s' := s.exec a = some s'

/-- The entries of other paths. -/
def others (s : ZookeeperHelper φ) (path : Bytes) : List (EventPair φ) :=
  s.zoo_event_list.filter (·.key ≠ path)

/-- What an operation should do to the map. -/
def Meant (s : ZookeeperHelper φ) (a : RegistryAct φ) (s' : ZookeeperHelper φ) : Prop :=
  match a with
  | .add event path handle =>
    (∃ e ∈ s'.zoo_event_list, e.key = path ∧ e.value.eventmask = handle.eventmask ||| event) ∧
      s'.others path = s.others path ∧ s'.zoo_path_list = s.zoo_path_list
  | .remove path =>
    path ∉ s'.events ∧ s'.others path = s.others path ∧ s'.zoo_path_list = s.zoo_path_list
  | .tmpNode .. => s'.zoo_event_list = s.zoo_event_list

/-- The path is in neither list. -/
def Fresh (s : ZookeeperHelper φ) : RegistryAct φ → Prop
  | .add _ path _ | .remove path => path ∉ s.paths ∧ path ∉ s.events
  | .tmpNode .. => True

/-! ## Fresh operations -/

theorem addEvent_of_fresh {event : BitVec 32} {path : Bytes} {handle : ZkEvent φ}
    (h : path ∉ s.paths) :
    s.addEvent event path handle = { s with zoo_event_list :=
      ⟨path, { handle with eventmask := handle.eventmask ||| event }⟩ :: s.zoo_event_list } :=
  if_neg h

theorem removeAfter_of_notMem {key : Bytes} {l : List PathPair}
    (h : key ∉ l.map PathPair.key) : removeAfter key l = some l := by
  induction l with
  | nil => rfl
  | cons p rest ih =>
    rw [List.map_cons, List.mem_cons, not_or] at h
    simp [removeAfter, Ne.symm h.1, ih h.2]

theorem removeEvent_of_fresh {path : Bytes} (h : path ∉ s.paths) :
    s.removeEvent path = some s := by
  rw [removeEvent, removeAfter_of_notMem h]
  rfl

theorem addTmpNode_events (path value : Bytes) (flag : Int) (created : Bool)
    (s : ZookeeperHelper φ) :
    (s.addTmpNode path value flag created).2.zoo_event_list = s.zoo_event_list := by
  simp only [addTmpNode]
  split_ifs
  · rfl
  · rfl
  · rfl
  · rfl
  · rfl

/-- A fresh operation does what it should and keeps one entry for each path. -/
theorem meant_step (hone : s.events.Nodup) (hfresh : Fresh s a) (ha : s.exec a = some s') :
    s'.events.Nodup ∧ Meant s a s' := by
  cases a with
  | add event path handle =>
    obtain ⟨hpath, hevent⟩ := hfresh
    cases ha
    rw [addEvent_of_fresh hpath]
    refine ⟨List.nodup_cons.mpr ⟨hevent, hone⟩, ⟨_, List.mem_cons_self, rfl, rfl⟩, ?_, rfl⟩
    simp [others]
  | remove path =>
    obtain ⟨hpath, hevent⟩ := hfresh
    rw [exec, removeEvent_of_fresh hpath] at ha
    cases ha
    exact ⟨hone, hevent, rfl, rfl⟩
  | tmpNode path value flag created =>
    cases ha
    have hsame := addTmpNode_events path value flag created s
    refine ⟨?_, hsame⟩
    unfold events
    rw [hsame]
    exact hone

theorem nodup_reach (h : ((registry (φ := φ)).restrict Fresh).Reach s) : s.events.Nodup := by
  refine LTS.Reach.invariant (T := registry.restrict Fresh) (I := fun s => s.events.Nodup) ?_
    (fun _ _ _ hi ha => (meant_step hi ha.1 ha.2).1) h
  intro s hs
  obtain rfl : s = new := hs
  exact List.nodup_nil

/-- **The registry is a map.** -/
theorem registered_of_fresh (h : ((registry (φ := φ)).restrict Fresh).Reach s) :
    s.events.Nodup ∧ ∀ a s', Fresh s a → registry.step s a s' → Meant s a s' := by
  have hone := nodup_reach h
  refine ⟨hone, ?_⟩
  intro a s' hfresh ha
  exact (meant_step hone hfresh ha).2

/-- A handler for the children of `/w`, and the event `CHILD_EVENT`. -/
def sampleAdd : RegistryAct Unit := .add 16 [47, 119] ⟨0, (), (), (), (), (), ()⟩

def sampleAdded : ZookeeperHelper Unit := ⟨[], [⟨[47, 119], ⟨16, (), (), (), (), (), ()⟩⟩]⟩

theorem sampleAdd_exec : new.exec sampleAdd = some sampleAdded := by decide +kernel

/-- Adding a path twice makes two entries. -/
theorem not_registered :
    ∃ (s : ZookeeperHelper Unit) (s' : ZookeeperHelper Unit), registry.Reach s ∧
      registry.step s sampleAdd s' ∧ ¬ s'.events.Nodup := by
  have hstart : registry.Reach (new : ZookeeperHelper Unit) := .init rfl
  exact ⟨sampleAdded, _, hstart.step sampleAdd_exec, rfl, by decide⟩

/-- An ephemeral node is recorded besides. -/
def sampleTmp : RegistryAct Unit := .tmpNode [47, 101] [118] 1 true

def sampleBoth : ZookeeperHelper Unit :=
  { sampleAdded with zoo_path_list := [⟨[47, 101], [118, 0], 1⟩] }

/-- A handler of another path, which is added to both lists' entries. -/
def sampleOther : RegistryAct Unit := .add 16 [47, 120] ⟨0, (), (), (), (), (), ()⟩

def sampleThree : ZookeeperHelper Unit :=
  { sampleBoth with zoo_event_list :=
      ⟨[47, 120], ⟨16, (), (), (), (), (), ()⟩⟩ :: sampleBoth.zoo_event_list }

theorem registered_of_fresh_sample :
    (registry.restrict Fresh).Reach sampleBoth ∧ Meant sampleBoth sampleOther sampleThree := by
  have hstart : (registry.restrict Fresh).Reach (new : ZookeeperHelper Unit) := .init rfl
  have hadded : (registry.restrict Fresh).Reach sampleAdded :=
    hstart.step (a := sampleAdd) ⟨⟨nofun, nofun⟩, sampleAdd_exec⟩
  have hboth : (registry.restrict Fresh).Reach sampleBoth :=
    hadded.step (a := sampleTmp) ⟨trivial, rfl⟩
  have hfresh : Fresh sampleBoth sampleOther := by
    have hpath : [47, 120] ∉ sampleBoth.paths := by decide
    have hevent : [47, 120] ∉ sampleBoth.events := by decide
    exact ⟨hpath, hevent⟩
  exact ⟨hboth, (registered_of_fresh hboth).2 _ _ hfresh rfl⟩

end ZookeeperHelper

end DevTools.Election
