import DevTools.Election.Register
import DevTools.Lib.CString

/-!
# `recursive_create_node`

Before `create_node`, the nodes above the path are created where they are missing. The loop has the
path in a buffer of its own: it cuts it at a slash, asks the server for what stands there, and puts
the slash back. What the server answers may depend on all the calls before.

**Theorem (`recursiveCreateNode_eq`).** For an absolute path of fewer than 256 bytes the loop comes
to an end. The calls are those for `path.take i`, for each slash at a position `i ≥ 1` in this
order: a check, and a creation if the node is missing. Then `create_node` gets the path itself.
-/

namespace DevTools.Election.Register

/-- A call on the server. -/
inductive ZooCall
  | zooExists (path : Bytes)
  | zooCreate (path : Bytes)
  deriving DecidableEq, Repr

/-- The path that a `zoo_exists` asks for. -/
def ZooCall.checked : ZooCall → Option Bytes
  | .zooExists path => some path
  | .zooCreate _ => none

def ZNONODE : Int := -101

/-- `zoo_exists`, and `zoo_create` if it says that there is no such node. `ask` gives the answer to
the last call of a list. -/
def visit (ask : List ZooCall → Int) (calls : List ZooCall) (path : Bytes) : List ZooCall :=
  let calls := calls ++ [.zooExists path]
  if ask calls = ZNONODE then calls ++ [.zooCreate path] else calls

/-- `strchr(strPath + pos, '/')`, as a position in the buffer. -/
def strchrSlash (strPath : Bytes) (pos : Nat) : Option Nat :=
  ((cstr (strPath.drop pos)).idxOf? 47).map (pos + ·)

/-- The loop, from a value of `substr_pos` on: the buffer and the calls after it. `none` if it is
not over after so many turns, or looks behind the buffer. -/
def walk (ask : List ZooCall → Int) :
    Nat → Bytes → Nat → List ZooCall → Option (Bytes × List ZooCall)
  | 0, _, _, _ => none
  | turns + 1, strPath, substr_pos, calls =>
    match strPath[substr_pos + 1]? with
    | none => none
    | some b =>
      if b = 0 then some (strPath, calls)
      else match strchrSlash strPath (substr_pos + 1) with
        | none => some (strPath, calls)
        | some substr_pos =>
          let cut := strPath.set substr_pos 0
          walk ask turns (cut.set substr_pos 47) substr_pos (visit ask calls (cstr cut))

/-- `recursive_create_node`, with the calls that it makes. `stale` is what the 256 bytes of
`strPath` hold before `snprintf`, and `zk` the tree when `create_node` is called. The second
component is `none` for the status -1 of a path that is not absolute. -/
def recursiveCreateNode (ask : List ZooCall → Int) (turns : Nat) (stale : Bytes) (env : Env)
    (h : Helper) (zk : Zk) (path value : Bytes) (flag : Int) (path_buffer : Option PathBuffer) :
    Option (List ZooCall × Option (Option Result)) :=
  if path.head? ≠ some 47 then some ([], none)
  else
    match walk ask turns (memCopyValue stale (path.take 255 ++ [0])) 0 [] with
    | none => none
    | some (strPath, calls) =>
      some (calls, some (createNode env h zk (cstr strPath) value flag path_buffer))

/-! ## The slashes of a path -/

/-- The positions of the slashes from `n` on. -/
def slashesFrom (path : Bytes) (n : Nat) : List Nat :=
  (List.range' n (path.length - n)).filter fun i => path[i]? = some 47

/-- The paths above a path: what stands before a slash that is not the first byte. -/
def ancestors (path : Bytes) : List Bytes := (slashesFrom path 1).map path.take

variable {ask : List ZooCall → Int} {turns : Nat} {pre l r rest junk path value : Bytes}
  {calls : List ZooCall}

theorem slashesFrom_of_notMem (hrest : 47 ∉ rest) : slashesFrom (pre ++ rest) pre.length = [] := by
  apply List.filter_eq_nil_iff.mpr
  intro i hi
  rw [List.mem_range'_1] at hi
  rw [List.getElem?_append_right hi.1]
  simpa using fun h => hrest (List.mem_of_getElem? h)

/-- The first slash and the ones after it. -/
theorem slashesFrom_split (hl : 47 ∉ l) :
    slashesFrom (pre ++ (l ++ 47 :: r)) pre.length = (pre.length + l.length) ::
      slashesFrom (pre ++ (l ++ 47 :: r)) (pre.length + l.length + 1) := by
  have hlen : (pre ++ (l ++ 47 :: r)).length - pre.length = l.length + (1 + r.length) := by
    simp
    omega
  have hlen' : (pre ++ (l ++ 47 :: r)).length - (pre.length + l.length + 1) = r.length := by
    simp
    omega
  unfold slashesFrom
  rw [hlen, hlen', ← List.range'_append_1, List.filter_append, Nat.add_comm 1 r.length,
    List.range'_succ, List.filter_cons_of_pos (by simp)]
  have hnone : (List.range' pre.length l.length).filter
      (fun i => (pre ++ (l ++ 47 :: r))[i]? = some 47) = [] := by
    apply List.filter_eq_nil_iff.mpr
    intro i hi
    rw [List.mem_range'_1] at hi
    rw [List.getElem?_append_right hi.1, List.getElem?_append_left (by omega)]
    simpa using fun h => hl (List.mem_of_getElem? h)
  rw [hnone, List.nil_append]

theorem take_split : (pre ++ (l ++ 47 :: r)).take (pre.length + l.length) = pre ++ l := by
  rw [← List.append_assoc, List.take_left' (by simp)]

/-! ## The walk -/

/-- The next slash behind the cursor. -/
theorem strchrSlash_split (hl : 47 ∉ l) (hnul : 0 ∉ l ++ 47 :: r) :
    strchrSlash (pre ++ (l ++ 47 :: r) ++ 0 :: junk) pre.length = some (pre.length + l.length) := by
  rw [strchrSlash, List.append_assoc, List.drop_left, cstr_of_notMem hnul, idxOf?_split hl]
  rfl

theorem strchrSlash_of_notMem (hrest : 47 ∉ rest) (hnul : 0 ∉ rest) :
    strchrSlash (pre ++ rest ++ 0 :: junk) pre.length = none := by
  rw [strchrSlash, List.append_assoc, List.drop_left, cstr_of_notMem hnul,
    List.idxOf?_eq_none_iff.mpr hrest]
  rfl

/-- Cutting at a slash gives what is before it, and the slash is put back. -/
theorem cstr_cut_slash (hnul : 0 ∉ pre ++ l) :
    cstr ((pre ++ (l ++ 47 :: r) ++ 0 :: junk).set (pre.length + l.length) 0) = pre ++ l := by
  have hsplit : pre ++ (l ++ 47 :: r) ++ 0 :: junk = (pre ++ l) ++ 47 :: (r ++ 0 :: junk) := by simp
  rw [hsplit, ← List.length_append]
  exact cstr_cut hnul _

theorem restore_slash :
    ((pre ++ (l ++ 47 :: r) ++ 0 :: junk).set (pre.length + l.length) 0).set
      (pre.length + l.length) 47 = pre ++ (l ++ 47 :: r) ++ 0 :: junk := by
  have hsplit : pre ++ (l ++ 47 :: r) ++ 0 :: junk = (pre ++ l) ++ 47 :: (r ++ 0 :: junk) := by simp
  rw [hsplit, ← List.length_append, List.set_set, List.set_append_right _ _ le_rfl, Nat.sub_self,
    List.set_cons_zero]

/-- The cursor is on the last byte of `pre`: the rest of the walk goes over the slashes of `rest`,
and the buffer is as before. -/
theorem walk_eq (hpre : pre ≠ []) (hnul : 0 ∉ pre ++ rest) (hturns : rest.length < turns) :
    walk ask turns (pre ++ rest ++ 0 :: junk) (pre.length - 1) calls =
      some (pre ++ rest ++ 0 :: junk,
        ((slashesFrom (pre ++ rest) pre.length).map (pre ++ rest).take).foldl (visit ask)
          calls) := by
  induction turns generalizing pre rest calls with
  | zero => cases hturns
  | succ turns ih =>
    have hpos : pre.length - 1 + 1 = pre.length :=
      Nat.sub_add_cancel (List.length_pos_iff.mpr hpre)
    rw [walk, hpos]
    by_cases hslash : 47 ∈ rest
    · obtain ⟨l, r, rfl, hl⟩ := List.eq_append_cons_of_mem hslash
      rw [List.mem_append, not_or] at hnul
      -- the byte behind the cursor is one of the path
      have hbyte : ∃ b, (pre ++ (l ++ 47 :: r) ++ 0 :: junk)[pre.length]? = some b ∧ b ≠ 0 := by
        rw [List.append_assoc, List.getElem?_append_right le_rfl, Nat.sub_self]
        cases l with
        | nil => exact ⟨47, rfl, by decide⟩
        | cons b l => exact ⟨b, rfl, fun hb => hnul.2 (hb ▸ List.mem_cons_self)⟩
      obtain ⟨b, hb, hne⟩ := hbyte
      have hprel : 0 ∉ pre ++ l := by
        rw [List.mem_append, not_or]
        exact ⟨hnul.1, fun h => hnul.2 (List.mem_append_left _ h)⟩
      simp only [hb, hne, if_false, strchrSlash_split hl hnul.2, restore_slash,
        cstr_cut_slash hprel]
      -- the walk goes on behind this slash
      have hsplit : pre ++ (l ++ 47 :: r) = (pre ++ l ++ [47]) ++ r := by simp
      have hlen : (pre ++ l ++ [47]).length = pre.length + l.length + 1 := by
        simp
        omega
      have hrec : walk ask turns (pre ++ l ++ [47] ++ r ++ 0 :: junk)
          ((pre ++ l ++ [47]).length - 1) (visit ask calls (pre ++ l)) = _ :=
        ih (by simp) (by rwa [← hsplit, List.mem_append, not_or]) ?_
      · rw [hlen, Nat.add_sub_cancel, ← hsplit] at hrec
        rw [hrec, slashesFrom_split hl, List.map_cons, List.foldl_cons, take_split]
      · simp at hturns
        omega
    · rw [slashesFrom_of_notMem hslash]
      cases rest with
      | nil => simp
      | cons b rest =>
        rw [List.mem_append, not_or] at hnul
        have hne : b ≠ 0 := fun hb => hnul.2 (hb ▸ List.mem_cons_self)
        have hb : (pre ++ b :: rest ++ 0 :: junk)[pre.length]? = some b := by simp
        simp only [hb, hne, if_false, strchrSlash_of_notMem hslash hnul.2, List.map_nil,
          List.foldl_nil]

/-! ## The calls -/

theorem checked_visit (calls : List ZooCall) (P : Bytes) :
    (visit ask calls P).filterMap ZooCall.checked = calls.filterMap ZooCall.checked ++ [P] := by
  dsimp only [visit]
  split_ifs
  · simp [ZooCall.checked]
  · simp [ZooCall.checked]

/-- Each path is checked once, in the order of the list. -/
theorem checked_foldl (paths : List Bytes) :
    (paths.foldl (visit ask) calls).filterMap ZooCall.checked =
      calls.filterMap ZooCall.checked ++ paths := by
  induction paths generalizing calls with
  | nil => simp
  | cons P paths ih =>
    rw [List.foldl_cons, ih, checked_visit, List.append_assoc, List.singleton_append]

/-- From the shortest to the longest. -/
theorem ancestors_pairwise (path : Bytes) :
    (ancestors path).Pairwise fun P Q => P.length < Q.length := by
  have hsorted : (slashesFrom path 1).Pairwise (· < ·) :=
    List.Pairwise.filter _ List.pairwise_lt_range'
  refine List.pairwise_map.mpr (hsorted.imp_of_mem ?_)
  intro i j hi hj hlt
  have hj := (List.mem_range'_1.mp (List.mem_filter.mp hj).1).2
  rw [List.length_take, List.length_take]
  omega

/-- **The nodes above the path are visited one after the other**, and `create_node` gets the
path. -/
theorem recursiveCreateNode_eq {stale : Bytes} {env : Env} {h : Helper} {zk : Zk} {flag : Int}
    {path_buffer : Option PathBuffer} (hnul : 0 ∉ path) (habs : path.head? = some 47)
    (hlen : path.length < 256) :
    recursiveCreateNode ask 256 stale env h zk path value flag path_buffer =
        some ((ancestors path).foldl (visit ask) [],
          some (createNode env h zk path value flag path_buffer)) ∧
      ((ancestors path).foldl (visit ask) []).filterMap ZooCall.checked = ancestors path ∧
      (ancestors path).Pairwise fun P Q => P.length < Q.length := by
  refine ⟨?_, checked_foldl (ancestors path), ancestors_pairwise path⟩
  cases path with
  | nil => cases habs
  | cons b rest =>
    obtain rfl : b = 47 := Option.some.inj habs
    have htake : (47 :: rest).take 255 = 47 :: rest := List.take_of_length_le (by omega)
    have hbuf : memCopyValue stale ((47 :: rest).take 255 ++ [0]) =
        [47] ++ rest ++ 0 :: stale.drop ((47 :: rest).length + 1) := by
      simp [memCopyValue, htake]
    have hwalk :
        walk ask 256 ([47] ++ rest ++ 0 :: stale.drop ((47 :: rest).length + 1)) 0 [] = _ :=
      walk_eq (by simp) hnul (by simp at hlen; omega)
    rw [recursiveCreateNode, if_neg (by simp), hbuf, hwalk]
    have hcstr : cstr ([47] ++ rest ++ 0 :: stale.drop ((47 :: rest).length + 1)) = 47 :: rest :=
      cstr_of_notMem hnul _
    simp only [hcstr]
    rfl

/-- A path with an empty component and a slash at its end. -/
def samplePath : Bytes := [47, 97, 47, 47, 98, 47]

example : ancestors samplePath = [[47, 97], [47, 97, 47], [47, 97, 47, 47, 98]] := by decide

theorem recursiveCreateNode_eq_samplePath :
    recursiveCreateNode (fun _ => ZNONODE) 256 [] Env.counting ⟨[], [], []⟩ ∅ samplePath [] 0 none =
      some ([.zooExists [47, 97], .zooCreate [47, 97], .zooExists [47, 97, 47],
          .zooCreate [47, 97, 47], .zooExists [47, 97, 47, 47, 98],
          .zooCreate [47, 97, 47, 47, 98]],
        some (createNode Env.counting ⟨[], [], []⟩ ∅ samplePath [] 0 none)) :=
  (recursiveCreateNode_eq (by decide) (by decide) (by decide)).1

end DevTools.Election.Register
