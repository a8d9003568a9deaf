import Mathlib.Data.List.Sort
import Mathlib.Data.String.Basic

/-!
# `node_indexof` and `create_node`

The two functions that the leader election rests on. `node_indexof` gives the position of an
instance's node among the sorted children of the watch node; `create_node`, in its branch for
`EPHEMERAL|SEQUENCE` nodes, is what `add_tmp_node` and the replay after a reconnection run.

Every ZooKeeper call of `create_node` may fail; `Answers` says how the calls of one run come
out. The run holds the helper's lock, and it is one step here.

* `nodeIndexof_eq_zero`: index 0 is the least child.
* `createNode_cases`: what one run can do to the children and to `election_node`.
-/

namespace DevTools.Election

/-- A child of the watch node. -/
structure Znode where
  name : String
  data : String
  deriving DecidableEq, Repr

/-! ## `node_indexof` -/

/-- `node_indexof(myid, strings)`: sort by `strcmp`, then search. -/
def nodeIndexof (myid : String) (strings : List String) : Int :=
  match (strings.insertionSort (· ≤ ·)).idxOf? myid with
  | some i => i
  | none => -1

theorem nodeIndexof_eq_neg_one {myid : String} {strings : List String} :
    nodeIndexof myid strings = -1 ↔ myid ∉ strings := by
  have hmem : myid ∈ strings.insertionSort (· ≤ ·) ↔ myid ∈ strings :=
    (List.perm_insertionSort _ strings).mem_iff
  unfold nodeIndexof
  split
  · rename_i i hi
    have hin : myid ∈ strings := by
      by_contra hnot
      rw [List.idxOf?_eq_none_iff.mpr (by rwa [hmem])] at hi
      cases hi
    constructor
    · intro h
      omega
    · intro h
      exact absurd hin h
  · rename_i hnone
    rw [List.idxOf?_eq_none_iff, hmem] at hnone
    simp [hnone]

/-- The instance whose index is 0 has the least child. -/
theorem nodeIndexof_eq_zero {myid : String} {strings : List String}
    (h : nodeIndexof myid strings = 0) : myid ∈ strings ∧ ∀ n ∈ strings, myid ≤ n := by
  have hin : myid ∈ strings := by
    by_contra hnot
    rw [nodeIndexof_eq_neg_one.mpr hnot] at h
    omega
  refine ⟨hin, ?_⟩
  have hperm := List.perm_insertionSort (· ≤ ·) strings
  have hsorted := List.pairwise_insertionSort (· ≤ ·) strings
  unfold nodeIndexof at h
  split at h
  · rename_i i hi
    obtain rfl : i = 0 := by omega
    cases hl : strings.insertionSort (· ≤ ·) with
    | nil =>
      rw [hl] at hi
      cases hi
    | cons m rest =>
      rw [hl] at hi hperm hsorted
      have hm : m = myid := by
        rw [List.idxOf?_cons] at hi
        by_contra hne
        rw [if_neg (by simpa using hne)] at hi
        obtain ⟨j, -, hj⟩ := Option.map_eq_some_iff.mp hi
        omega
      subst hm
      intro n hn
      rcases List.mem_cons.mp (hperm.mem_iff.mpr hn) with rfl | hn
      · exact le_rfl
      · exact List.rel_of_pairwise_cons hsorted hn
  · omega

/-! ## `create_node` -/

/-- How `zoo_create` comes out. -/
inductive CreateAnswer
  | ok (name : String)
  /-- the node is there, the client sees an error -/
  | replyLost (name : String)
  | refused
  deriving DecidableEq, Repr

/-- How the calls of one run come out. -/
structure Answers where
  /-- `zoo_exists` on the path itself answers ZNONODE; otherwise it fails -/
  existsPath : Bool
  /-- `zoo_exists` on the remembered node comes back -/
  existsNode : Bool
  /-- `zoo_helper_get_children` comes back -/
  getChildren : Bool
  /-- the children on which `zoo_helper_get` fails -/
  getFails : List String
  create : CreateAnswer
  deriving DecidableEq, Repr

/-- The child that the scan stops at: the first in order that can be read and carries the
uuid. -/
def scan (uuid : String) (children : List Znode) (a : Answers) : Option Znode :=
  if a.getChildren then
    (children.insertionSort (fun p q => p.name ≤ q.name)).find? fun c =>
      c.name ∉ a.getFails ∧ c.data = uuid
  else none

/-- What a run of `create_node` leaves behind. -/
structure Created where
  ret : Int
  electionNode : String
  children : List Znode
  deriving DecidableEq, Repr

/-- `create_node` on a path `P/1` with `EPHEMERAL|SEQUENCE`. No child is literally named `1`, so
`zoo_exists` on the path answers ZNONODE or fails. The inner `res` shadows the outer one, which
is still ZNONODE at the label: both shortcuts return -1. -/
def createNode (electionNode uuid : String) (children : List Znode) (a : Answers) : Created :=
  if a.existsPath then
    if electionNode ≠ "" ∧ a.existsNode ∧ electionNode ∈ children.map Znode.name then
      ⟨-1, electionNode, children⟩
    else match scan uuid children a with
      -- `strncpy` copies the data of the child, not its name
      | some c => ⟨-1, c.data, children⟩
      | none => match a.create with
        | .ok name => ⟨0, name, children ++ [⟨name, uuid⟩]⟩
        | .replyLost name => ⟨-1, electionNode, children ++ [⟨name, uuid⟩]⟩
        | .refused => ⟨-1, electionNode, children⟩
  else ⟨-1, electionNode, children⟩

/-- The name that `zoo_create` would use. -/
def CreateAnswer.name? : CreateAnswer → Option String
  | .ok name | .replyLost name => some name
  | .refused => none

theorem scan_data {uuid : String} {children : List Znode} {a : Answers} {c : Znode}
    (h : scan uuid children a = some c) : c.data = uuid := by
  unfold scan at h
  split at h
  · have hc := List.find?_some h
    simp only [decide_eq_true_eq] at hc
    exact hc.2
  · cases h

/-- **What one run can do.** The children gain at most the new node; `election_node` changes only
if the remembered node was not found, and then to the uuid or to the new node's name. -/
theorem createNode_cases (node uuid : String) (children : List Znode) (a : Answers) :
    ((createNode node uuid children a).children = children ∨
      ∃ name, a.create.name? = some name ∧
        (createNode node uuid children a).children = children ++ [⟨name, uuid⟩]) ∧
    ((createNode node uuid children a).electionNode = node ∨
      ¬ (node ≠ "" ∧ a.existsNode ∧ node ∈ children.map Znode.name) ∧
        ((createNode node uuid children a).electionNode = uuid ∨
          ∃ name, a.create.name? = some name ∧
            (createNode node uuid children a).electionNode = name ∧
            (createNode node uuid children a).children = children ++ [⟨name, uuid⟩])) := by
  unfold createNode
  split
  · split
    · exact ⟨.inl rfl, .inl rfl⟩
    · rename_i hnot
      split
      · rename_i c hc
        exact ⟨.inl rfl, .inr ⟨hnot, .inl (scan_data hc)⟩⟩
      · split
        · rename_i name hname
          have hn : a.create.name? = some name := by rw [hname]; rfl
          exact ⟨.inr ⟨name, hn, rfl⟩, .inr ⟨hnot, .inr ⟨name, hn, rfl, rfl⟩⟩⟩
        · rename_i name hname
          have hn : a.create.name? = some name := by rw [hname]; rfl
          exact ⟨.inr ⟨name, hn, rfl⟩, .inl rfl⟩
        · exact ⟨.inl rfl, .inl rfl⟩
  · exact ⟨.inl rfl, .inl rfl⟩

end DevTools.Election
