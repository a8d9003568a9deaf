import DevTools.Election.CreateNode
import DevTools.Lib.Transition
import Mathlib.Data.Fintype.Basic

/-!
# The election handlers

Any number of instances of the order service watch one node of ZooKeeper. Each has a child there
(at most; it is ephemeral) and two threads that look at the children: the watcher runs
`child_event`, the election thread runs `test_event`. A run of a handler is

* `read`: the call of `zoo_helper_get_children`, which may fail;
* `decide`: `node_indexof` of the remembered node, and the branch on it;
* `register`, `unregister` or `add`: the calls that the branch leads to.

The steps of all instances, the expiry of children and runs of `create_node` outside the
handlers (joining, and the replay after a reconnection) interleave freely. `creator` is a ghost
that remembers who created a name; names are never used again.
-/

namespace DevTools.Election

inductive Handler
  | child
  | test
  deriving DecidableEq, Repr

/-- Where a thread stands. `read` is the list it got, `none` when the call failed. -/
inductive Pc
  | idle
  /-- before `node_indexof` -/
  | got (read : Option (List String))
  /-- before `register_to_registry` -/
  | leading (read : Option (List String))
  /-- before `unregister_4_registry`, and whether `add_tmp_node` comes after it -/
  | resigning (read : Option (List String)) (andAdd : Bool)
  /-- before `add_tmp_node` -/
  | adding (read : Option (List String))
  deriving DecidableEq, Repr

inductive Phase
  | absent
  | live
  /-- `exit(0)` -/
  | exited
  deriving DecidableEq, Repr

/-- One process of the order service. -/
structure Instance where
  phase : Phase
  isregister : Bool
  electionNode : String
  pc : Handler → Pc
  /-- what the handler run that completed last has read -/
  last : Option (List String)

/-- A process before `startOrderSequence`. -/
def Instance.fresh : Instance := ⟨.absent, false, "", fun _ => .idle, none⟩

/-- The watch node and the instances. -/
structure Cluster (ι : Type) where
  children : List Znode
  inst : ι → Instance
  /-- ghost: who created a name -/
  creator : String → Option ι

inductive Act (ι : Type)
  | join (i : ι)
  /-- a child disappears -/
  | expire (name : String)
  /-- a run of `create_node` outside the handlers -/
  | create (i : ι) (a : Answers)
  | read (h : Handler) (i : ι) (strings : Option (List String))
  | decide (h : Handler) (i : ι)
  | register (h : Handler) (i : ι)
  | unregister (h : Handler) (i : ι)
  | add (h : Handler) (i : ι) (a : Answers)

/-- Where a handler goes with the index of the remembered node. -/
def branch (h : Handler) (isregister : Bool) (i : Int) (read : Option (List String)) : Pc :=
  if i = 0 then .leading read
  else if i = -1 then
    match h with
    | .child => if isregister then .adding read else .resigning read false
    | .test => .resigning read true
  else .resigning read false

theorem branch_leading {h : Handler} {r : Bool} {i : Int} {read read' : Option (List String)}
    (hb : branch h r i read = .leading read') : i = 0 ∧ read = read' := by
  unfold branch at hb
  by_cases hi : i = 0
  · rw [if_pos hi] at hb
    cases hb
    exact ⟨hi, rfl⟩
  · rw [if_neg hi] at hb
    cases h <;> cases r <;> by_cases hn : i = -1 <;> simp [hn] at hb

theorem branch_ne_got {h : Handler} {r : Bool} {i : Int} {read read' : Option (List String)} :
    branch h r i read ≠ .got read' := by
  unfold branch
  by_cases hi : i = 0
  · simp [hi]
  · cases h <;> cases r <;> by_cases hn : i = -1 <;> simp [hi, hn]

/-- `child_event` adds a node only instead of resigning. -/
theorem branch_child_resigning {r andAdd : Bool} {i : Int} {read read' : Option (List String)}
    (hb : branch .child r i read = .resigning read' andAdd) : andAdd = false := by
  unfold branch at hb
  by_cases hi : i = 0
  · simp [hi] at hb
  · cases r <;> by_cases hn : i = -1 <;> simp_all

/-- `child_event` adds a node for a registered instance whose node it does not find. -/
theorem branch_child_adding {r : Bool} {i : Int} {read read' : Option (List String)}
    (hb : branch .child r i read = .adding read') : i = -1 ∧ r = true ∧ read = read' := by
  unfold branch at hb
  by_cases hi : i = 0
  · simp [hi] at hb
  · cases r <;> by_cases hn : i = -1 <;> simp_all

namespace Instance

def goto (x : Instance) (h : Handler) (p : Pc) : Instance :=
  { x with pc := Function.update x.pc h p }

/-- The end of a run. -/
def complete (x : Instance) (h : Handler) (read : Option (List String)) : Instance :=
  { x.goto h .idle with last := read }

/-- `unregister_4_registry` and what follows it. -/
def resign (x : Instance) (h : Handler) (read : Option (List String)) (andAdd : Bool) :
    Instance :=
  if x.isregister then { x with phase := .exited, isregister := false }
  else if andAdd then x.goto h (.adding read)
  else x.complete h read

end Instance

namespace Cluster

variable {ι : Type} [DecidableEq ι]

def names (s : Cluster ι) : List String := s.children.map Znode.name

def set (s : Cluster ι) (i : ι) (x : Instance) : Cluster ι :=
  { s with inst := Function.update s.inst i x }

/-- Instance `i` runs `create_node`, and becomes `f` of what that makes of it. -/
def runCreate (uuid : ι → String) (s : Cluster ι) (i : ι) (a : Answers)
    (f : Instance → Instance) : Cluster ι :=
  let c := createNode (s.inst i).electionNode (uuid i) s.children a
  { children := c.children
    inst := Function.update s.inst i (f { s.inst i with electionNode := c.electionNode })
    creator := fun n =>
      if n ∈ c.children.map Znode.name ∧ n ∉ s.names then some i else s.creator n }

/-- One step, as a function of its label. -/
def next (uuid : ι → String) (s : Cluster ι) : Act ι → Option (Cluster ι)
  | .join i => if (s.inst i).phase = .absent
    then some (s.set i { Instance.fresh with phase := .live }) else none
  | .expire name => some { s with children := s.children.filter (·.name ≠ name) }
  | .create i a => if (s.inst i).phase = .live then some (s.runCreate uuid i a id) else none
  | .read h i strings => if (s.inst i).phase = .live ∧ (s.inst i).pc h = .idle then
      match strings with
      | some l =>
        if l.Perm s.names then some (s.set i ((s.inst i).goto h (.got (some l)))) else none
      -- `child_event` does not look at the result; `test_event` returns
      | none => match h with
        | .child => some (s.set i ((s.inst i).goto h (.got none)))
        | .test => some (s.set i ((s.inst i).complete h none))
    else none
  | .decide h i => if (s.inst i).phase = .live then
      match (s.inst i).pc h with
      | .got read => some (s.set i ((s.inst i).goto h
          (branch h (s.inst i).isregister (nodeIndexof (s.inst i).electionNode (read.getD []))
            read)))
      | _ => none
    else none
  | .register h i => if (s.inst i).phase = .live then
      match (s.inst i).pc h with
      | .leading read => some (s.set i { (s.inst i).complete h read with isregister := true })
      | _ => none
    else none
  | .unregister h i => if (s.inst i).phase = .live then
      match (s.inst i).pc h with
      | .resigning read andAdd => some (s.set i ((s.inst i).resign h read andAdd))
      | _ => none
    else none
  | .add h i a => if (s.inst i).phase = .live then
      match (s.inst i).pc h with
      | .adding read => some (s.runCreate uuid i a (·.complete h read))
      | _ => none
    else none

/-- The name that a step may create. -/
def newName : Act ι → Option String
  | .create _ a | .add _ _ a => a.create.name?
  | _ => none

/-- ZooKeeper gives a new node a name that was never used; it is not empty, and no uuid. -/
def Fresh (uuid : ι → String) (s : Cluster ι) (act : Act ι) : Prop :=
  ∀ name ∈ newName act, s.creator name = none ∧ name ≠ "" ∧ ∀ j, name ≠ uuid j

instance [Fintype ι] (uuid : ι → String) (s : Cluster ι) (act : Act ι) :
    Decidable (Fresh uuid s act) :=
  inferInstanceAs (Decidable (∀ _ ∈ _, _))

/-- The instances and ZooKeeper, from a watch node without children. -/
def lts (uuid : ι → String) : LTS (Cluster ι) (Act ι) where
  init s := s.children = [] ∧ (∀ i, s.inst i = Instance.fresh) ∧ ∀ name, s.creator name = none
  step s act s' := Fresh uuid s act ∧ s.next uuid act = some s'

/-- The same steps as a function, for finitely many instances. -/
def exec [Fintype ι] (uuid : ι → String) (s : Cluster ι) (act : Act ι) : Option (Cluster ι) :=
  if Fresh uuid s act then s.next uuid act else none

theorem exec_sound [Fintype ι] {uuid : ι → String} {s s' : Cluster ι} {act : Act ι}
    (h : exec uuid s act = some s') : (lts uuid).step s act s' := by
  unfold exec at h
  rwa [Option.ite_none_right_eq_some] at h

/-- Every live instance's last handler run has completed and has read, without failing, the
list that still is the current one. -/
def Settled (s : Cluster ι) : Prop :=
  ∀ i, (s.inst i).phase = .live →
    (∀ h, (s.inst i).pc h = .idle) ∧ ∃ l, (s.inst i).last = some l ∧ l.Perm s.names

/-- At most one live instance is registered, and it has the least child. -/
structure Agreement (s : Cluster ι) : Prop where
  unique : ∀ i j, (s.inst i).phase = .live → (s.inst j).phase = .live →
    (s.inst i).isregister → (s.inst j).isregister → i = j
  least : ∀ i, (s.inst i).phase = .live → (s.inst i).isregister →
    (s.inst i).electionNode ∈ s.names ∧ ∀ n ∈ s.names, (s.inst i).electionNode ≤ n

end Cluster

end DevTools.Election
