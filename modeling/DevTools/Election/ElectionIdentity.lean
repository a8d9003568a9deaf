import DevTools.Election.Register

/-!
# The election identity

`create_node` on a path `P/1` with `EPHEMERAL|SEQUENCE` should leave the helper with one node of its
own and with that node's name in `election_node`, also when the node is there already: because it
is still remembered, or because the reply to an earlier create was lost and the uuid gives it away.

**Theorem (`keepsIdentity_iff`).** It does so exactly if there is no such node yet, the search for
one neither leaves its buffers nor takes another node for it, and the caller's buffer has room for
the new path.

Both ways of finding a node that is there return -1: `existing_fails` has one of each.
-/

namespace DevTools.Election.Register

/-! ## The search -/

/-- `buf_len` after the children have been read: the least of their lengths and of its first
value. -/
def readLen (zk : Zk) (P : Bytes) (buf_len : Int) (names : List Bytes) : Int :=
  names.foldl (fun len name =>
    match zk.lookup (P ++ 47 :: name) with
    | some node => min node.len len
    | none => len) buf_len

/-- No child's path is too long, no length is negative or too large, and no child's data, as far as
it is read, is the uuid. -/
def ScanMisses (zk : Zk) (P uuid : Bytes) (buf_len : Int) (names : List Bytes) : Prop :=
  ∀ pre name post, names = pre ++ name :: post →
    (P ++ 47 :: name).length < 50 ∧ ∀ node, zk.lookup (P ++ 47 :: name) = some node →
      0 ≤ readLen zk P buf_len (pre ++ [name]) ∧ readLen zk P buf_len (pre ++ [name]) ≤ 511 ∧
      ¬ (readLen zk P buf_len (pre ++ [name]) = uuid.length ∧
        (node.data.getD []).take (readLen zk P buf_len (pre ++ [name])).toNat = uuid)

/-- What the first child of the loop must be like, and what is left to the others. -/
theorem scanMisses_cons {zk : Zk} {P uuid name : Bytes} {buf_len : Int} {rest : List Bytes} :
    ScanMisses zk P uuid buf_len (name :: rest) ↔
      ((P ++ 47 :: name).length < 50 ∧ ∀ node, zk.lookup (P ++ 47 :: name) = some node →
        0 ≤ readLen zk P buf_len [name] ∧ readLen zk P buf_len [name] ≤ 511 ∧
        ¬ (readLen zk P buf_len [name] = uuid.length ∧
          (node.data.getD []).take (readLen zk P buf_len [name]).toNat = uuid)) ∧
      ScanMisses zk P uuid (readLen zk P buf_len [name]) rest := by
  constructor
  · intro h
    refine ⟨h [] name rest rfl, ?_⟩
    intro pre name' post hsplit
    exact h (name :: pre) name' post (by rw [hsplit]; rfl)
  · rintro ⟨hfirst, hrest⟩ pre name' post hsplit
    cases pre with
    | nil =>
      cases hsplit
      exact hfirst
    | cons n pre =>
      cases hsplit
      exact hrest pre name' post rfl

/-- The loop finds nothing exactly then. -/
theorem scan_eq_none_iff {zk : Zk} {P uuid : Bytes} {buf_len : Int} {names : List Bytes} :
    scan zk P uuid names buf_len = some none ↔ ScanMisses zk P uuid buf_len names := by
  induction names generalizing buf_len with
  | nil => simp [scan, ScanMisses]
  | cons name rest ih =>
    rw [scanMisses_cons, ← ih]
    simp only [scan]
    by_cases hlen : 50 ≤ (P ++ 47 :: name).length
    · rw [if_pos hlen]
      constructor
      · intro h
        cases h
      · rintro ⟨⟨hshort, -⟩, -⟩
        exact absurd hlen (not_le.2 hshort)
    · have hshort : (P ++ 47 :: name).length < 50 := not_le.1 hlen
      rw [if_neg hlen]
      cases hnode : zk.lookup (P ++ 47 :: name) with
      | none =>
        have hread : readLen zk P buf_len [name] = buf_len := by simp [readLen, hnode]
        rw [hread]
        constructor
        · intro h
          exact ⟨⟨hshort, nofun⟩, h⟩
        · intro h
          exact h.2
      | some node =>
        have hread : readLen zk P buf_len [name] = min node.len buf_len := by
          simp [readLen, hnode]
        rw [hread]
        dsimp only
        generalize min node.len buf_len = len
        split_ifs with hbad hfound
        · simp only [false_iff]
          rintro ⟨⟨-, hall⟩, -⟩
          obtain ⟨h0, hle, -⟩ := hall node rfl
          omega
        · simp only [Option.some.injEq, reduceCtorEq, false_iff]
          rintro ⟨⟨-, hall⟩, -⟩
          exact (hall node rfl).2.2 hfound
        · constructor
          · intro h
            refine ⟨⟨hshort, ?_⟩, h⟩
            rintro _ ⟨⟩
            exact ⟨by omega, by omega, hfound⟩
          · intro h
            exact h.2

/-! ## The way to success -/

theorem notMem_fetchNode {b : UInt8} {s : Bytes} (h : b ∉ s) : b ∉ fetchNode s := by
  unfold fetchNode
  split
  · intro hin
    exact h (List.mem_of_mem_drop hin)
  · exact h

theorem notMem_stored {buf : PathBuffer} {created : Bytes} {b : UInt8} (hc : b ∉ created)
    (hbuf : b ∉ buf.content) : b ∉ buf.stored created := by
  unfold PathBuffer.stored
  split_ifs
  · intro hin
    exact hc (List.mem_of_mem_take hin)
  · exact hbuf

theorem cstr_memCopyValue {s : Bytes} (h : 0 ∉ s) (old : Bytes) :
    cstr (memCopyValue old (s ++ [0])) = s := by
  have hsplit : memCopyValue old (s ++ [0]) = s ++ 0 :: old.drop (s ++ [0]).length := by
    simp [memCopyValue]
  rw [hsplit, cstr_of_notMem h]

/-- The end of a run that has created a node. -/
def registered (env : Env) (h : Helper) (zk : Zk) (path value : Bytes) (flag : Int)
    (buf : PathBuffer) : Result :=
  let stored := buf.stored (env.created zk path flag)
  let election_node := memCopyValue h.election_node (fetchNode stored ++ [0])
  finish { h with election_node := election_node } (env.create zk path h.election_uuid flag) path
    value flag (some { buf with content := stored })

section

variable {env : Env} {h : Helper} {zk : Zk} {P leaf path value : Bytes} {flag : Int}
  {buf : PathBuffer}

/-- Only a new node lets `create_node` return 0. -/
theorem createBelow_ret_zero {r : Result} :
    (createBelow env h zk P path value flag (some buf) = some r ∧ r.ret = 0) ↔
      ¬ (cstr h.election_node ≠ [] ∧ (P ++ 47 :: cstr h.election_node).take 255 ∈ zk) ∧
      scan zk P h.election_uuid ((zk.children P).insertionSort (· ≤ ·)) (env.buf_len zk path) =
        some none ∧
      (fetchNode (buf.stored (env.created zk path flag))).length < h.election_node.length ∧
      r = registered env h zk path value flag buf := by
  unfold createBelow
  dsimp only
  by_cases hnode : cstr h.election_node ≠ [] ∧ (P ++ 47 :: cstr h.election_node).take 255 ∈ zk
  · rw [if_pos hnode]
    constructor
    · rintro ⟨hr, hret⟩
      split_ifs at hr
      cases hr
      cases hret
    · rintro ⟨hnot, -⟩
      exact absurd hnode hnot
  · rw [if_neg hnode]
    cases hscan : scan zk P h.election_uuid ((zk.children P).insertionSort (· ≤ ·))
        (env.buf_len zk path) with
    | none => simp
    | some found =>
      cases found with
      | some data =>
        constructor
        · rintro ⟨hr, hret⟩
          cases hr
          cases hret
        · rintro ⟨-, hnone, -⟩
          cases hnone
      | none =>
        dsimp only
        split_ifs with hlen
        · constructor
          · rintro ⟨hr, -⟩
            cases hr
            exact ⟨hnode, rfl, hlen, rfl⟩
          · rintro ⟨-, -, -, rfl⟩
            exact ⟨rfl, rfl⟩
        · constructor
          · rintro ⟨hr, -⟩
            cases hr
          · rintro ⟨-, -, hlen', -⟩
            exact absurd hlen' hlen

end

/-! ## The identity -/

/-- What `create_node` should do for `P/1`: it returns 0, there is one child with the helper's uuid,
`election_node` is its name, and nothing is created if there was one before. -/
def KeepsIdentity (h : Helper) (zk : Zk) (P : Bytes) (res : Option Result) : Prop :=
  ∃ r, res = some r ∧ r.ret = 0 ∧
    (∃ name, r.zk.carriers P h.election_uuid = [name] ∧ cstr r.helper.election_node = name) ∧
    (zk.carriers P h.election_uuid ≠ [] → r.zk = zk)

/-- There is no node to be found, and nothing that is mistaken for one; the buffers have room for
the new name. -/
structure CanRegister (env : Env) (h : Helper) (zk : Zk) (P leaf : Bytes) (flag : Int)
    (buf : PathBuffer) : Prop where
  none_yet : zk.carriers P h.election_uuid = []
  forgotten : cstr h.election_node = [] ∨ (P ++ 47 :: cstr h.election_node).take 255 ∉ zk
  misses : ScanMisses zk P h.election_uuid (env.buf_len zk (P ++ 47 :: leaf))
    ((zk.children P).insertionSort (· ≤ ·))
  fits : fetchNode (buf.stored (env.created zk (P ++ 47 :: leaf) flag)) =
    leaf ++ env.suffix zk (P ++ 47 :: leaf)
  room : (leaf ++ env.suffix zk (P ++ 47 :: leaf)).length < h.election_node.length

section

variable {env : Env} {h : Helper} {zk : Zk} {P leaf value : Bytes} {flag : Int} {buf : PathBuffer}

/-- A buffer that the created path fits into is long enough. -/
theorem fits_of_lt (hseq : Sequence flag) (hslash : 47 ∉ leaf) (hnul : 0 ∉ leaf)
    (hlen : (env.created zk (P ++ 47 :: leaf) flag).length < buf.len) :
    fetchNode (buf.stored (env.created zk (P ++ 47 :: leaf) flag)) =
      leaf ++ env.suffix zk (P ++ 47 :: leaf) := by
  obtain ⟨-, hname, -⟩ := env.name_valid zk (P ++ 47 :: leaf) hslash hnul
  have hall : buf.stored (env.created zk (P ++ 47 :: leaf) flag) =
      env.created zk (P ++ 47 :: leaf) flag := by
    rw [PathBuffer.stored, if_pos (by omega)]
    exact List.take_of_length_le (by omega)
  rw [hall, Env.created_child hseq, fetchNode_append hname]

/-- The children with the uuid after a create. -/
theorem carriers_create (hseq : Sequence flag) (hslash : 47 ∉ leaf) (hnul : 0 ∉ leaf)
    (uuid : Bytes) : (env.create zk (P ++ 47 :: leaf) uuid flag).carriers P uuid =
      (leaf ++ env.suffix zk (P ++ 47 :: leaf)) :: zk.carriers P uuid := by
  obtain ⟨hne, hname, -⟩ := env.name_valid zk (P ++ 47 :: leaf) hslash hnul
  have hfresh := env.fresh zk (P ++ 47 :: leaf)
  rw [List.append_assoc, List.cons_append] at hfresh
  rw [Env.create, Env.created_child hseq]
  exact Zk.carriers_insert hne hname hfresh

/-- What ends up in `election_node`. -/
theorem cstr_registered (hseq : Sequence flag) (hslash : 47 ∉ leaf) (hnul : 0 ∉ P ++ 47 :: leaf)
    (hbuf : 0 ∉ buf.content) :
    cstr (registered env h zk (P ++ 47 :: leaf) value flag buf).helper.election_node =
      fetchNode (buf.stored (env.created zk (P ++ 47 :: leaf) flag)) := by
  refine cstr_memCopyValue (notMem_fetchNode (notMem_stored ?_ hbuf)) h.election_node
  rw [List.mem_append, not_or, List.mem_cons, not_or] at hnul
  obtain ⟨hP, hslash0, hleaf⟩ := hnul
  obtain ⟨-, -, hname⟩ := env.name_valid zk (P ++ 47 :: leaf) hslash hleaf
  rw [Env.created_child hseq, List.mem_append, not_or, List.mem_cons, not_or]
  exact ⟨hP, hslash0, hname⟩

theorem canRegister_of_keepsIdentity (hflag : Ephemeral flag ∧ Sequence flag) (hslash : 47 ∉ leaf)
    (hnul : 0 ∉ P ++ 47 :: leaf) (hbuf : 0 ∉ buf.content) (hnew : P ++ 47 :: leaf ∉ zk)
    (hkeeps : KeepsIdentity h zk P
      (createNode env h zk (P ++ 47 :: leaf) value flag (some buf))) :
    CanRegister env h zk P leaf flag buf := by
  have hnode := @cstr_registered env h zk P leaf value flag buf hflag.2 hslash hnul hbuf
  rw [List.mem_append, not_or, List.mem_cons, not_or] at hnul
  obtain ⟨hP, -, hleaf⟩ := hnul
  obtain ⟨r, hr, hret, ⟨name, hone, hname⟩, -⟩ := hkeeps
  rw [createNode_of_election hslash hP hnew hflag] at hr
  obtain ⟨hforgot, hscan, hlen, rfl⟩ := createBelow_ret_zero.1 ⟨hr, hret⟩
  have hboth := (carriers_create hflag.2 hslash hleaf h.election_uuid).symm.trans hone
  obtain ⟨hsame, hnone⟩ := List.cons_eq_cons.1 hboth
  have hfits := (hnode.symm.trans hname).trans hsame.symm
  exact {
    none_yet := hnone
    forgotten := by
      rw [not_and_or, not_not] at hforgot
      exact hforgot
    misses := scan_eq_none_iff.1 hscan
    fits := hfits
    room := hfits ▸ hlen }

theorem keepsIdentity_of_canRegister (hflag : Ephemeral flag ∧ Sequence flag) (hslash : 47 ∉ leaf)
    (hnul : 0 ∉ P ++ 47 :: leaf) (hbuf : 0 ∉ buf.content) (hnew : P ++ 47 :: leaf ∉ zk)
    (hcan : CanRegister env h zk P leaf flag buf) :
    KeepsIdentity h zk P (createNode env h zk (P ++ 47 :: leaf) value flag (some buf)) := by
  have hnode := @cstr_registered env h zk P leaf value flag buf hflag.2 hslash hnul hbuf
  rw [List.mem_append, not_or, List.mem_cons, not_or] at hnul
  obtain ⟨hP, -, hleaf⟩ := hnul
  have hforgot : ¬ (cstr h.election_node ≠ [] ∧
      (P ++ 47 :: cstr h.election_node).take 255 ∈ zk) := by
    rw [not_and_or, not_not]
    exact hcan.forgotten
  have hlen : (fetchNode (buf.stored (env.created zk (P ++ 47 :: leaf) flag))).length <
      h.election_node.length := hcan.fits ▸ hcan.room
  obtain ⟨hr, hret⟩ := (@createBelow_ret_zero env h zk P (P ++ 47 :: leaf) value flag buf _).2
    ⟨hforgot, scan_eq_none_iff.2 hcan.misses, hlen, rfl⟩
  rw [createNode_of_election hslash hP hnew hflag]
  refine ⟨_, hr, hret, ⟨leaf ++ env.suffix zk (P ++ 47 :: leaf), ?_, ?_⟩, ?_⟩
  · refine (carriers_create hflag.2 hslash hleaf h.election_uuid).trans ?_
    rw [hcan.none_yet]
  · exact hnode.trans hcan.fits
  · intro hsome
    exact absurd hcan.none_yet hsome

end

/-- **The identity is kept** exactly then. -/
theorem keepsIdentity_iff (env : Env) (h : Helper) (zk : Zk) (P leaf value : Bytes) (flag : Int)
    (buf : PathBuffer) (hflag : Ephemeral flag ∧ Sequence flag) (hslash : 47 ∉ leaf)
    (hnul : 0 ∉ P ++ 47 :: leaf) (hbuf : 0 ∉ buf.content) (hnew : P ++ 47 :: leaf ∉ zk) :
    KeepsIdentity h zk P (createNode env h zk (P ++ 47 :: leaf) value flag (some buf)) ↔
      CanRegister env h zk P leaf flag buf := by
  constructor
  · intro hkeeps
    exact canRegister_of_keepsIdentity hflag hslash hnul hbuf hnew hkeeps
  · intro hcan
    exact keepsIdentity_of_canRegister hflag hslash hnul hbuf hnew hcan

/-! ## Samples -/

/-- A uuid of 20 characters. -/
def sampleUuid : Bytes := List.replicate 20 97

/-- `/e` with a node of somebody else. -/
def sampleOthers : Zk :=
  ((∅ : Zk).insert [47, 101] ⟨some [32], false⟩).insert [47, 101, 47, 50]
    ⟨some (List.replicate 20 98), true⟩

/-- The same with `/e/3`, which has the uuid. -/
def sampleMine : Zk := sampleOthers.insert [47, 101, 47, 51] ⟨some sampleUuid, true⟩

/-- A helper whose `election_node` is this. -/
def sampleHelper (node : Bytes) : Helper :=
  ⟨[], node ++ List.replicate (50 - node.length) 0, sampleUuid⟩

/-- The node `/e/3` is remembered, or was created when the reply was lost. -/
theorem existing_fails :
    [47, 101, 47, 49] ∉ sampleMine ∧ sampleMine.carriers [47, 101] sampleUuid = [[51]] ∧
      cstr (sampleHelper [51]).election_node = [51] ∧
      ¬ KeepsIdentity (sampleHelper [51]) sampleMine [47, 101]
        (createNode .counting (sampleHelper [51]) sampleMine [47, 101, 47, 49] [118] 3
          (some ⟨128, []⟩)) ∧
      ¬ KeepsIdentity (sampleHelper []) sampleMine [47, 101]
        (createNode .counting (sampleHelper []) sampleMine [47, 101, 47, 49] [118] 3
          (some ⟨128, []⟩)) := by
  have hcarrier : sampleMine.carriers [47, 101] sampleUuid = [[51]] := by decide
  have hfails : ∀ node, ¬ KeepsIdentity (sampleHelper node) sampleMine [47, 101]
      (createNode .counting (sampleHelper node) sampleMine ([47, 101] ++ 47 :: [49]) [118] 3
        (some ⟨128, []⟩)) := by
    intro node hkeeps
    have hcan := canRegister_of_keepsIdentity (by decide) (by decide) (by decide) (by decide)
      (by decide) hkeeps
    cases hcarrier.symm.trans hcan.none_yet
  exact ⟨by decide, hcarrier, by decide, hfails [51], hfails []⟩

/-- The first registration: somebody else's node is there. -/
theorem keepsIdentity_sample :
    KeepsIdentity (sampleHelper []) sampleOthers [47, 101]
      (createNode .counting (sampleHelper []) sampleOthers ([47, 101] ++ 47 :: [49]) [118] 3
        (some ⟨128, []⟩)) := by
  refine (keepsIdentity_iff .counting _ _ _ _ _ _ _ (by decide) (by decide) (by decide)
    (by decide) (by decide)).2 ?_
  exact {
    none_yet := by decide
    forgotten := .inl (by decide)
    misses := scan_eq_none_iff.1 (by decide)
    fits := fits_of_lt (by decide) (by decide) (by decide) (by decide)
    room := by decide }

end DevTools.Election.Register
