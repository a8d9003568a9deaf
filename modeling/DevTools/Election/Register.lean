import DevTools.Election.EventRegistry
import Mathlib.Algebra.GroupWithZero.Nat
import Mathlib.Algebra.Order.BigOperators.Group.List
import Mathlib.Algebra.Order.Group.Nat
import Mathlib.Data.List.AList
import Mathlib.Data.List.Sort

/-!
# `create_node` in full

`create_node` is run by `add_tmp_node`, with a buffer for the created path, and by the replay after
a reconnection, without one. It works on C strings: it cuts the caller's path at the last slash and
puts the slash back, and it copies names in and out of buffers of fixed size. This module has it
byte by byte, for any path and any flag, on a server whose calls come out; a run that leaves a
buffer or uses a null pointer has no result.

* `Zk` is the tree of nodes, from full paths to data. The server chooses the digits that it appends
  to a sequential node's path, and they make the path new (`Env`).
* `scan` is the search for the uuid. Its `buf_len` is not set before the first `zoo_get`, and after
  that it is the length of what was read last.
* `record` is the end of `create_node`, which `EventRegistry` has as part of `addTmpNode`.
-/

namespace DevTools.Election.Register

/-! ## C strings -/

/-- What a buffer says when it is read as a string. -/
def cstr (buf : Bytes) : Bytes := buf.takeWhile (· ≠ 0)

/-- The position of the last slash, searched from the end. -/
def lastSlash : Bytes → Option Nat
  | [] => none
  | b :: rest =>
    match lastSlash rest with
    | some i => some (i + 1)
    | none => if b = 47 then some 0 else none

/-- `fetch_node`: what follows the last slash. -/
def fetchNode (buf : Bytes) : Bytes :=
  match lastSlash buf with
  | some i => buf.drop (i + 1)
  | none => buf

theorem cstr_of_notMem {s : Bytes} (h : 0 ∉ s) (r : Bytes) : cstr (s ++ 0 :: r) = s := by
  induction s with
  | nil => simp [cstr]
  | cons b s ih =>
    rw [List.mem_cons, not_or] at h
    have hrest := ih h.2
    unfold cstr at hrest ⊢
    rw [List.cons_append, List.takeWhile_cons, if_pos (by simpa using Ne.symm h.1), hrest]

theorem lastSlash_append {leaf : Bytes} (h : 47 ∉ leaf) (P : Bytes) :
    lastSlash (P ++ 47 :: leaf) = some P.length := by
  have hleaf : lastSlash leaf = none := by
    induction leaf with
    | nil => rfl
    | cons b leaf ih =>
      rw [List.mem_cons, not_or] at h
      simp [lastSlash, ih h.2, Ne.symm h.1]
  induction P with
  | nil => simp [lastSlash, hleaf]
  | cons b P ih => simp [lastSlash, ih]

/-- The byte at the last slash is a slash. -/
theorem set_lastSlash {path : Bytes} {pos : Nat} (h : lastSlash path = some pos) (b : UInt8) :
    (path.set pos b).set pos 47 = path := by
  induction path generalizing pos with
  | nil => cases h
  | cons c path ih =>
    rw [lastSlash] at h
    cases hrest : lastSlash path with
    | some i =>
      rw [hrest] at h
      cases h
      simp only [List.set_cons_succ, ih hrest]
    | none =>
      rw [hrest] at h
      dsimp only at h
      split_ifs at h with hc
      cases h
      simp [hc]

theorem fetchNode_append {leaf : Bytes} (h : 47 ∉ leaf) (P : Bytes) :
    fetchNode (P ++ 47 :: leaf) = leaf := by
  simp [fetchNode, lastSlash_append h]

/-- Cutting a path at its last slash gives the parent. -/
theorem cstr_cut {P : Bytes} (h : 0 ∉ P) (leaf : Bytes) :
    cstr ((P ++ 47 :: leaf).set P.length 0) = P := by
  rw [List.set_append_right _ _ le_rfl, Nat.sub_self, List.set_cons_zero]
  exact cstr_of_notMem h leaf

/-! ## The server -/

/-- A node. Its data may be null. -/
structure Node where
  data : Option Bytes
  ephemeral : Bool
  deriving DecidableEq, Repr

/-- The nodes by their full path. -/
abbrev Zk := AList fun _ : Bytes => Node

/-- `flag & ZOO_EPHEMERAL`. -/
def Ephemeral (flag : Int) : Prop := flag % 2 = 1

/-- `flag & ZOO_SEQUENCE`. -/
def Sequence (flag : Int) : Prop := flag / 2 % 2 = 1

instance (flag : Int) : Decidable (Ephemeral flag) := inferInstanceAs (Decidable (_ = _))
instance (flag : Int) : Decidable (Sequence flag) := inferInstanceAs (Decidable (_ = _))

/-- What a run does not determine: the counter that the server appends to a sequential node's path,
and what `buf_len` holds before it is set. -/
structure Env where
  suffix : Zk → Bytes → Bytes
  buf_len : Zk → Bytes → Int
  digits : ∀ zk path, suffix zk path ≠ [] ∧ ∀ b ∈ suffix zk path, 48 ≤ b ∧ b ≤ 57
  fresh : ∀ zk path, path ++ suffix zk path ∉ zk

namespace Zk

/-- The name of the child of `P` that a path is, if it is one. -/
def childName (P path : Bytes) : Option Bytes :=
  if (P ++ [47]).isPrefixOf path then
    let name := path.drop (P.length + 1)
    if name ≠ [] ∧ 47 ∉ name then some name else none
  else none

/-- The children of `P`. -/
def children (zk : Zk) (P : Bytes) : List Bytes := zk.keys.filterMap (childName P)

/-- The children of `P` whose data is `uuid`. -/
def carriers (zk : Zk) (P uuid : Bytes) : List Bytes :=
  (zk.children P).filter fun name =>
    (zk.lookup (P ++ 47 :: name)).map Node.data = some (some uuid)

theorem childName_append {name : Bytes} (hne : name ≠ []) (hslash : 47 ∉ name) (P : Bytes) :
    childName P (P ++ 47 :: name) = some name := by
  have hsplit : P ++ 47 :: name = (P ++ [47]) ++ name := by simp
  have hpre : (P ++ [47]).isPrefixOf (P ++ 47 :: name) = true := by
    rw [hsplit, List.isPrefixOf_iff_prefix]
    exact List.prefix_append _ _
  have hdrop : (P ++ 47 :: name).drop (P.length + 1) = name := by
    rw [hsplit, List.drop_left' (by simp)]
  simp [childName, hpre, hdrop, hne, hslash]

theorem eq_of_childName {P path name : Bytes} (h : childName P path = some name) :
    path = P ++ 47 :: name ∧ name ≠ [] ∧ 47 ∉ name := by
  unfold childName at h
  dsimp only at h
  split_ifs at h with hpre hname
  cases h
  obtain ⟨rest, rfl⟩ := List.isPrefixOf_iff_prefix.1 hpre
  have hdrop : (P ++ [47] ++ rest).drop (P.length + 1) = rest := List.drop_left' (by simp)
  rw [hdrop] at hname ⊢
  exact ⟨by simp, hname⟩

theorem mem_children {zk : Zk} {P name : Bytes} :
    name ∈ zk.children P ↔ P ++ 47 :: name ∈ zk ∧ name ≠ [] ∧ 47 ∉ name := by
  unfold children
  rw [List.mem_filterMap]
  constructor
  · rintro ⟨path, hpath, hname⟩
    obtain ⟨rfl, hne⟩ := eq_of_childName hname
    exact ⟨hpath, hne⟩
  · rintro ⟨hpath, hne, hslash⟩
    exact ⟨_, hpath, childName_append hne hslash P⟩

/-- A new child with the uuid is one more. -/
theorem carriers_insert {zk : Zk} {P name uuid : Bytes} {e : Bool} (hne : name ≠ [])
    (hslash : 47 ∉ name) (hnew : P ++ 47 :: name ∉ zk) :
    carriers (zk.insert (P ++ 47 :: name) ⟨some uuid, e⟩) P uuid = name :: zk.carriers P uuid := by
  have hchildren : children (zk.insert (P ++ 47 :: name) ⟨some uuid, e⟩) P =
      name :: zk.children P := by
    have hkeys : (zk.insert (P ++ 47 :: name) ⟨some uuid, e⟩).keys =
        (P ++ 47 :: name) :: zk.keys := by
      rw [AList.insert_of_notMem hnew]
      rfl
    rw [children, hkeys, List.filterMap_cons, childName_append hne hslash]
    rfl
  unfold carriers
  rw [hchildren, List.filter_cons_of_pos (by simp [AList.lookup_insert])]
  congr 1
  refine List.filter_congr fun n hn => ?_
  have hn' : P ++ 47 :: n ≠ P ++ 47 :: name := fun heq => hnew (heq ▸ (mem_children.1 hn).1)
  rw [AList.lookup_insert_ne hn']

end Zk

namespace Env

/-- The path that `zoo_create` creates. -/
def created (env : Env) (zk : Zk) (path : Bytes) (flag : Int) : Bytes :=
  if Sequence flag then path ++ env.suffix zk path else path

theorem created_child {env : Env} {flag : Int} (hseq : Sequence flag) (zk : Zk) (P leaf : Bytes) :
    env.created zk (P ++ 47 :: leaf) flag =
      P ++ 47 :: (leaf ++ env.suffix zk (P ++ 47 :: leaf)) := by
  simp [created, hseq]

/-- The name of a new sequential node is a name. -/
theorem name_valid (env : Env) (zk : Zk) (path : Bytes) {leaf : Bytes} (hslash : 47 ∉ leaf)
    (hnul : 0 ∉ leaf) : leaf ++ env.suffix zk path ≠ [] ∧ 47 ∉ leaf ++ env.suffix zk path ∧
      0 ∉ leaf ++ env.suffix zk path := by
  obtain ⟨hne, hdigits⟩ := env.digits zk path
  refine ⟨by simp [hne], ?_, ?_⟩
  · intro h
    rcases List.mem_append.1 h with h | h
    · exact hslash h
    · exact absurd (hdigits _ h).1 (by decide)
  · intro h
    rcases List.mem_append.1 h with h | h
    · exact hnul h
    · exact absurd (hdigits _ h).1 (by decide)

/-- `zoo_create`. -/
def create (env : Env) (zk : Zk) (path data : Bytes) (flag : Int) : Zk :=
  zk.insert (env.created zk path flag) ⟨some data, decide (Ephemeral flag)⟩

/-- A server that starts to count at 0, in ten digits. -/
def counting : Env where
  suffix zk path :=
    if path ++ List.replicate 10 48 ∈ zk then List.replicate ((zk.keys.map List.length).sum + 1) 48
    else List.replicate 10 48
  buf_len _ _ := 512
  digits zk path := by
    have hdigit : ∀ n, ∀ b ∈ List.replicate n (48 : UInt8), 48 ≤ b ∧ b ≤ 57 := by
      intro n b hb
      rw [List.eq_of_mem_replicate hb]
      decide
    split_ifs
    · exact ⟨by simp, hdigit _⟩
    · exact ⟨by simp, hdigit _⟩
  fresh zk path := by
    split_ifs with hold
    · intro hin
      have hlen := List.le_sum_of_mem (List.mem_map_of_mem (f := List.length) hin)
      simp only [List.length_append, List.length_replicate] at hlen
      omega
    · exact hold

end Env

/-- The caller's `path_buffer`: `path_buffer_len`, and the string in it. -/
structure PathBuffer where
  len : Int
  content : Bytes
  deriving DecidableEq, Repr

/-- The string in the buffer after `zoo_create` has put the created path there. -/
def PathBuffer.stored (buf : PathBuffer) (created : Bytes) : Bytes :=
  if 0 < buf.len then created.take (buf.len - 1).toNat else buf.content

/-! ## The search for the uuid -/

/-- The length of a node's data, -1 for null. -/
def Node.len (node : Node) : Int :=
  match node.data with
  | some data => data.length
  | none => -1

/-- The loop over the sorted children. `zoo_get` reads no more than `buf_len` bytes and sets
`buf_len` to what it has read; `zoo_helper_get` puts a NUL behind it in the 512 bytes of `buf`. The
child's path goes to the 50 bytes of `p`. `none` when one of these is left; otherwise what was read
from the child that the loop stops at. -/
def scan (zk : Zk) (P uuid : Bytes) : List Bytes → Int → Option (Option Bytes)
  | [], _ => some none
  | name :: rest, buf_len =>
    if 50 ≤ (P ++ 47 :: name).length then none
    else match zk.lookup (P ++ 47 :: name) with
      | none => scan zk P uuid rest buf_len
      | some node =>
        let len := min node.len buf_len
        if len < 0 ∨ 511 < len then none
        else
          let buf := (node.data.getD []).take len.toNat
          if len = uuid.length ∧ buf = uuid then some (some buf)
          else scan zk P uuid rest len

/-! ## `create_node` -/

/-- The helper's fields that `create_node` uses; `election_node` is a buffer. -/
structure Helper where
  zoo_path_list : List PathPair
  election_node : Bytes
  election_uuid : Bytes
  deriving DecidableEq

/-- What a run leaves behind; `path` is the caller's string, which was edited in place. -/
structure Result where
  ret : Int
  helper : Helper
  zk : Zk
  path : Bytes
  path_buffer : Option PathBuffer

/-- The end of `create_node`: the path goes to `zoo_path_list`, or its entry is updated. -/
def record (path value : Bytes) (flag : Int) (l : List PathPair) : List PathPair :=
  if path ∈ l.map PathPair.key then
    updateFirst path (fun p =>
      { p with value := memCopyValue p.value (value ++ [0]), flag := flag }) l
  else ⟨path, value ++ [0], flag⟩ :: l

/-- What follows the label when `res` is ZOK. -/
def finish (h : Helper) (zk : Zk) (path value : Bytes) (flag : Int) (buf : Option PathBuffer) :
    Result :=
  let list := if flag = 0 then h.zoo_path_list else record path value flag h.zoo_path_list
  ⟨0, { h with zoo_path_list := list }, zk, path, buf⟩

/-- The branch for `EPHEMERAL|SEQUENCE`; `P` is the path as it is cut, and `path` as it is put
together again on each way out. The inner `res` shadows the outer one, which is still ZNONODE at
the label: both shortcuts return -1. -/
def createBelow (env : Env) (h : Helper) (zk : Zk) (P path value : Bytes) (flag : Int)
    (path_buffer : Option PathBuffer) : Option Result :=
  let node := cstr h.election_node
  if node ≠ [] ∧ (P ++ 47 :: node).take 255 ∈ zk then
    -- `strcpy(path_buffer, election_node)`
    match path_buffer with
    | none => none
    | some buf =>
      if node.length < buf.len then some ⟨-1, h, zk, path, some { buf with content := node }⟩
      else none
  else
    match scan zk P h.election_uuid ((zk.children P).insertionSort (· ≤ ·))
        (env.buf_len zk path) with
    | none => none
    | some (some buf) =>
      -- `strncpy` copies the data of the child, not its name, and no NUL
      some ⟨-1, { h with election_node := memCopyValue h.election_node buf }, zk, path, path_buffer⟩
    | some none =>
      -- `strlen(path_buffer)`
      match path_buffer with
      | none => none
      | some buf =>
        let stored := buf.stored (env.created zk path flag)
        let name := fetchNode stored
        if name.length < h.election_node.length then
          some (finish { h with election_node := memCopyValue h.election_node (name ++ [0]) }
            (env.create zk path h.election_uuid flag) path value flag
            (some { buf with content := stored }))
        else none

/-- The same, with the path cut at its last slash. -/
def createElection (env : Env) (h : Helper) (zk : Zk) (path value : Bytes) (flag : Int)
    (path_buffer : Option PathBuffer) : Option Result :=
  match lastSlash path with
  | none => none
  | some pos =>
    createBelow env h zk (cstr (path.set pos 0)) ((path.set pos 0).set pos 47) value flag
      path_buffer

/-- `create_node`. -/
def createNode (env : Env) (h : Helper) (zk : Zk) (path value : Bytes) (flag : Int)
    (path_buffer : Option PathBuffer) : Option Result :=
  if path ∈ zk then
    some (finish h (env.create (zk.erase path) path value flag) path value flag
      (path_buffer.map fun buf =>
        { buf with content := buf.stored (env.created (zk.erase path) path flag) }))
  else if Ephemeral flag ∧ Sequence flag then
    createElection env h zk path value flag path_buffer
  else
    some (finish h (env.create zk path value flag) path value flag
      (path_buffer.map fun buf => { buf with content := buf.stored (env.created zk path flag) }))

/-! ## The ways through `create_node` -/

section

variable {env : Env} {h : Helper} {zk : Zk} {P leaf value : Bytes} {flag : Int}
  {path_buffer : Option PathBuffer}

theorem createNode_of_mem {path : Bytes} (hin : path ∈ zk) :
    createNode env h zk path value flag path_buffer =
      some (finish h (env.create (zk.erase path) path value flag) path value flag
        (path_buffer.map fun buf =>
          { buf with content := buf.stored (env.created (zk.erase path) path flag) })) :=
  if_pos hin

theorem createNode_of_plain {path : Bytes} (hnew : path ∉ zk)
    (hflag : ¬ (Ephemeral flag ∧ Sequence flag)) :
    createNode env h zk path value flag path_buffer =
      some (finish h (env.create zk path value flag) path value flag
        (path_buffer.map fun buf =>
          { buf with content := buf.stored (env.created zk path flag) })) := by
  rw [createNode, if_neg hnew, if_neg hflag]

theorem createNode_of_election (hslash : 47 ∉ leaf) (hnul : 0 ∉ P)
    (hnew : P ++ 47 :: leaf ∉ zk) (hflag : Ephemeral flag ∧ Sequence flag) :
    createNode env h zk (P ++ 47 :: leaf) value flag path_buffer =
      createBelow env h zk P (P ++ 47 :: leaf) value flag path_buffer := by
  rw [createNode, if_neg hnew, if_pos hflag, createElection, lastSlash_append hslash]
  simp only [cstr_cut hnul, set_lastSlash (lastSlash_append hslash P)]

/-- What `create_node` does to the list: nothing when it fails, and `record` otherwise; the caller's
path is as it was. -/
theorem createNode_list {path : Bytes} {r : Result}
    (hr : createNode env h zk path value flag path_buffer = some r) :
    r.path = path ∧
      (r.ret = -1 ∧ r.helper.zoo_path_list = h.zoo_path_list ∨
        r.ret = 0 ∧ r.helper.zoo_path_list =
          if flag = 0 then h.zoo_path_list else record path value flag h.zoo_path_list) := by
  unfold createNode at hr
  split_ifs at hr
  · cases hr
    exact ⟨rfl, .inr ⟨rfl, rfl⟩⟩
  · unfold createElection at hr
    split at hr
    · cases hr
    · rename_i pos hpos
      rw [set_lastSlash hpos] at hr
      unfold createBelow at hr
      dsimp only at hr
      split at hr
      · split at hr
        · cases hr
        · split_ifs at hr
          cases hr
          exact ⟨rfl, .inl ⟨rfl, rfl⟩⟩
      · split at hr
        · cases hr
        · cases hr
          exact ⟨rfl, .inl ⟨rfl, rfl⟩⟩
        · split at hr
          · cases hr
          · split_ifs at hr
            cases hr
            exact ⟨rfl, .inr ⟨rfl, rfl⟩⟩
  · cases hr
    exact ⟨rfl, .inr ⟨rfl, rfl⟩⟩

end

/-! ## `add_tmp_node` -/

section

variable {φ : Type}

/-- `addTmpNode` of the event registry, in terms of `record`. -/
theorem addTmpNode_eq (path value : Bytes) (flag : Int) (created : Bool) (s : ZookeeperHelper φ) :
    s.addTmpNode path value flag created =
      if path.head? = some 47 ∧ created = true then
        (0, { s with zoo_path_list := if flag = 0 then s.zoo_path_list
                else record (path.take 255) value flag s.zoo_path_list })
      else (-1, s) := by
  unfold ZookeeperHelper.addTmpNode
  by_cases hpath : path.head? = some 47
  · cases created with
    | false => simp [hpath]
    | true =>
      by_cases hflag : flag = 0
      · simp [hpath, hflag]
      · by_cases hkey : path.take 255 ∈ s.paths
        · have hkey' : path.take 255 ∈ s.zoo_path_list.map PathPair.key := hkey
          simp only [hpath, hflag, hkey, record, if_pos hkey', ne_eq, not_true_eq_false,
            ↓reduceIte, and_self]
        · have hkey' : path.take 255 ∉ s.zoo_path_list.map PathPair.key := hkey
          simp only [hpath, hflag, hkey, record, if_neg hkey', ne_eq, not_true_eq_false,
            ↓reduceIte, and_self]
  · simp [hpath]

/-- It is `create_node` on the path that fits into `strPath`. -/
theorem addTmpNode_createNode {env : Env} {h : Helper} {zk : Zk} {path value : Bytes} {flag : Int}
    {path_buffer : Option PathBuffer} {s : ZookeeperHelper φ} {r : Result}
    (hlist : s.zoo_path_list = h.zoo_path_list) (hpath : path.head? = some 47)
    (hr : createNode env h zk (path.take 255) value flag path_buffer = some r) :
    (s.addTmpNode path value flag (r.ret = 0)).1 = r.ret ∧
      (s.addTmpNode path value flag (r.ret = 0)).2.zoo_path_list = r.helper.zoo_path_list := by
  rw [addTmpNode_eq]
  obtain ⟨-, ⟨hret, hsame⟩ | ⟨hret, hsame⟩⟩ := createNode_list hr
  · simp [hret, hsame, hlist]
  · simp [hpath, hret, hsame, hlist]

end

end DevTools.Election.Register
