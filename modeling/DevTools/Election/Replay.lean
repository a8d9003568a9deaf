import DevTools.Election.Register

/-!
# Replaying the registrations

After a session has expired, `watcher` goes through `zoo_path_list` and calls `create_node` for
every entry, with the entry's own key and value and without a buffer for the created path.

**Theorem (`replay_faithful`).** If no entry of a list that `add_tmp_node` has built has both
`ZOO_EPHEMERAL` and `ZOO_SEQUENCE` in its flag, the replay calls `create_node` once for every entry,
creates every ephemeral node again, leaves the list as it was and clears `reconnection_flag`. A node
with both flags is not created again, unless a node has its very path.

In `null_buffer` the list has one election node: its name is fetched from the null pointer.
-/

namespace DevTools.Election.Register

/-! ## `watcher` on `ZOO_CONNECTED_STATE` -/

inductive Mode
  | connection
  | register
  | destory
  deriving DecidableEq, Repr

/-- A helper with its mode and its `reconnection_flag`. -/
structure Client where
  helper : Helper
  mode : Mode
  reconnection_flag : Bool
  deriving DecidableEq

/-- What the loop leaves behind; `calls` are the paths it called `create_node` with. -/
structure Replayed where
  helper : Helper
  zk : Zk
  calls : List Bytes

/-- `re_connect`, after the session has expired. -/
def reConnect (c : Client) : Client := { c with reconnection_flag := true }

/-- The loop of `watcher`, when the last `n` entries are still to come. An entry's key is edited in
place while `create_node` runs. -/
def replay (env : Env) : Nat → Helper → Zk → Option Replayed
  | 0, h, zk => some ⟨h, zk, []⟩
  | n + 1, h, zk => do
    let p ← h.zoo_path_list[h.zoo_path_list.length - (n + 1)]?
    let r ← createNode env h zk p.key (cstr p.value) p.flag none
    let list := r.helper.zoo_path_list.modify (r.helper.zoo_path_list.length - (n + 1))
      fun q => { q with key := r.path }
    let rest ← replay env n { r.helper with zoo_path_list := list } r.zk
    some { rest with calls := p.key :: rest.calls }

/-- `watcher` on a session event with `ZOO_CONNECTED_STATE`, up to `re_set_event`. -/
def connected (env : Env) (c : Client) (zk : Zk) : Option (Client × Zk × List Bytes) :=
  if c.mode = .register ∧ c.reconnection_flag then
    (replay env c.helper.zoo_path_list.length c.helper zk).map fun r =>
      ({ c with helper := r.helper, reconnection_flag := false }, r.zk, r.calls)
  else some (c, zk, [])

/-! ## The list -/

theorem updateFirst_self {l : List PathPair} {p : PathPair} {f : PathPair → PathPair}
    (hone : (l.map PathPair.key).Nodup) (hp : p ∈ l) (hf : f p = p) :
    updateFirst p.key f l = l := by
  induction l with
  | nil => cases hp
  | cons q l ih =>
    obtain ⟨hnot, hrest⟩ := List.nodup_cons.1 hone
    rcases List.mem_cons.1 hp with rfl | hp
    · simp [updateFirst, hf]
    · have hne : q.key ≠ p.key := fun heq => hnot (heq ▸ List.mem_map_of_mem hp)
      simp [updateFirst, hne, ih hrest hp]

theorem updateFirst_keys {key : Bytes} {f : PathPair → PathPair} (hf : ∀ p, (f p).key = p.key)
    (l : List PathPair) : (updateFirst key f l).map PathPair.key = l.map PathPair.key := by
  induction l with
  | nil => rfl
  | cons q l ih =>
    simp only [updateFirst]
    split_ifs
    · simp [hf]
    · simp [ih]

theorem mem_updateFirst {key : Bytes} {f : PathPair → PathPair} {l : List PathPair} {q : PathPair}
    (h : q ∈ updateFirst key f l) : q ∈ l ∨ ∃ p ∈ l, q = f p := by
  induction l with
  | nil => cases h
  | cons p l ih =>
    simp only [updateFirst] at h
    split_ifs at h
    · rcases List.mem_cons.1 h with rfl | h
      · exact .inr ⟨p, List.mem_cons_self, rfl⟩
      · exact .inl (List.mem_cons_of_mem p h)
    · rcases List.mem_cons.1 h with rfl | h
      · exact .inl List.mem_cons_self
      · rcases ih h with h | ⟨p', hp', rfl⟩
        · exact .inl (List.mem_cons_of_mem p h)
        · exact .inr ⟨p', List.mem_cons_of_mem p hp', rfl⟩

/-- Copying a value onto itself changes nothing. -/
theorem memCopyValue_self {buf : Bytes} (h : 0 ∈ buf) :
    memCopyValue buf (cstr buf ++ [0]) = buf := by
  induction buf with
  | nil => cases h
  | cons b buf ih =>
    by_cases hb : b = 0
    · simp [memCopyValue, cstr, hb]
    · have hin : 0 ∈ buf := List.mem_of_ne_of_mem (Ne.symm hb) h
      have hrest := ih hin
      simpa [memCopyValue, cstr, hb] using hrest

/-- One entry for each path, and every value ends with NUL. -/
structure Recorded (l : List PathPair) : Prop where
  keys : (l.map PathPair.key).Nodup
  values : ∀ p ∈ l, 0 ∈ p.value

/-- No entry has both flags, besides. -/
structure Plain (l : List PathPair) : Prop extends Recorded l where
  flags : ∀ p ∈ l, ¬ (Ephemeral p.flag ∧ Sequence p.flag)

theorem Recorded.record {l : List PathPair} (h : Recorded l) (path value : Bytes) (flag : Int) :
    Recorded (record path value flag l) := by
  unfold Register.record
  split_ifs with hin
  · refine ⟨?_, ?_⟩
    · rw [updateFirst_keys]
      · exact h.keys
      · intro p
        rfl
    · intro q hq
      rcases mem_updateFirst hq with hq | ⟨p, hp, rfl⟩
      · exact h.values q hq
      · simp [memCopyValue]
  · refine ⟨List.nodup_cons.2 ⟨hin, h.keys⟩, ?_⟩
    rw [List.forall_mem_cons]
    exact ⟨by simp, h.values⟩

/-- An entry that is recorded again as it is changes nothing. -/
theorem Recorded.record_self {l : List PathPair} (h : Recorded l) {p : PathPair} (hp : p ∈ l) :
    Register.record p.key (cstr p.value) p.flag l = l := by
  unfold Register.record
  rw [if_pos (List.mem_map_of_mem hp)]
  refine updateFirst_self h.keys hp ?_
  rw [memCopyValue_self (h.values p hp)]

/-! ## One entry -/

/-- The server after the entry's `create_node`. -/
def recreate (env : Env) (zk : Zk) (p : PathPair) : Zk :=
  env.create (if p.key ∈ zk then zk.erase p.key else zk) p.key (cstr p.value) p.flag

section

variable {env : Env} {h : Helper} {zk : Zk} {p : PathPair}

/-- `create_node` on an entry of the list touches only the server. -/
theorem createNode_entry (hl : Plain h.zoo_path_list) (hp : p ∈ h.zoo_path_list) :
    createNode env h zk p.key (cstr p.value) p.flag none =
      some ⟨0, h, recreate env zk p, p.key, none⟩ := by
  have hfinish : ∀ zk', finish h zk' p.key (cstr p.value) p.flag none =
      ⟨0, h, zk', p.key, none⟩ := by
    intro zk'
    unfold finish
    rw [hl.record_self hp, ite_self]
  by_cases hin : p.key ∈ zk
  · rw [createNode_of_mem hin, recreate, if_pos hin]
    exact congrArg some (hfinish _)
  · rw [createNode_of_plain hin (hl.flags p hp), recreate, if_neg hin]
    exact congrArg some (hfinish _)

/-- The entry's node is there. -/
theorem lookup_recreate (hseq : ¬ Sequence p.flag) :
    (recreate env zk p).lookup p.key = some ⟨some (cstr p.value), decide (Ephemeral p.flag)⟩ := by
  rw [recreate, Env.create, Env.created, if_neg hseq, AList.lookup_insert]

/-- Every other node stays. -/
theorem lookup_recreate_of_ne {path : Bytes} {node : Node} (hne : path ≠ p.key)
    (hnode : zk.lookup path = some node) : (recreate env zk p).lookup path = some node := by
  have hkept : (if p.key ∈ zk then zk.erase p.key else zk).lookup path = some node := by
    split_ifs
    · rw [AList.lookup_erase_ne hne, hnode]
    · exact hnode
  rw [recreate]
  generalize (if p.key ∈ zk then zk.erase p.key else zk) = zk' at hkept ⊢
  have hold : path ∈ zk' := by
    rw [← AList.lookup_isSome, hkept]
    rfl
  have hcreated : path ≠ env.created zk' p.key p.flag := by
    unfold Env.created
    split_ifs with hseq
    · rintro rfl
      exact env.fresh _ _ hold
    · exact hne
  rw [Env.create, AList.lookup_insert_ne hcreated, hkept]

end

/-! ## The loop -/

theorem getElem?_entry {l done todo : List PathPair} {p : PathPair} (hl : l = done ++ p :: todo) :
    l[l.length - (todo.length + 1)]? = some p := by
  have hpos : l.length - (todo.length + 1) = done.length := by simp [hl]
  rw [hpos, hl]
  simp

theorem modify_entry {l done todo : List PathPair} {p : PathPair} (hl : l = done ++ p :: todo)
    {f : PathPair → PathPair} (hf : f p = p) : l.modify (l.length - (todo.length + 1)) f = l := by
  have hpos : l.length - (todo.length + 1) = done.length := by simp [hl]
  rw [hpos, hl, List.modify_eq_take_cons_drop (by simp)]
  simp [hf]

/-- The loop over the rest of the list. -/
theorem replay_spec {env : Env} {h : Helper} (hl : Plain h.zoo_path_list)
    {done todo : List PathPair} (hsplit : h.zoo_path_list = done ++ todo) (zk : Zk) :
    replay env todo.length h zk =
      some ⟨h, todo.foldl (recreate env) zk, todo.map PathPair.key⟩ := by
  induction todo generalizing done zk with
  | nil => rfl
  | cons p todo ih =>
    have hp : p ∈ h.zoo_path_list := by simp [hsplit]
    have hsplit' : h.zoo_path_list = (done ++ [p]) ++ todo := by simp [hsplit]
    have hkeys : h.zoo_path_list.modify (h.zoo_path_list.length - (todo.length + 1))
        (fun q => { q with key := p.key }) = h.zoo_path_list := modify_entry hsplit rfl
    simp only [replay, List.length_cons, getElem?_entry hsplit, Option.bind_eq_bind,
      Option.bind_some, createNode_entry hl hp, hkeys, ih hsplit', List.foldl_cons, List.map_cons]

/-- Every ephemeral node is there at the end. -/
theorem lookup_replayed {env : Env} {l : List PathPair} {zk : Zk}
    (hone : (l.map PathPair.key).Nodup) {p : PathPair} (hp : p ∈ l) (hseq : ¬ Sequence p.flag) :
    (l.foldl (recreate env) zk).lookup p.key =
      some ⟨some (cstr p.value), decide (Ephemeral p.flag)⟩ := by
  -- the entries behind `p` have other keys
  have hkept : ∀ (todo : List PathPair) (zk : Zk) (node : Node),
      p.key ∉ todo.map PathPair.key → zk.lookup p.key = some node →
      (todo.foldl (recreate env) zk).lookup p.key = some node := by
    intro todo
    induction todo with
    | nil => exact fun _ _ _ h => h
    | cons q todo ih =>
      intro zk node hnot hnode
      rw [List.map_cons, List.mem_cons, not_or] at hnot
      exact ih _ node hnot.2 (lookup_recreate_of_ne hnot.1 hnode)
  induction l generalizing zk with
  | nil => cases hp
  | cons q l ih =>
    obtain ⟨hnot, hrest⟩ := List.nodup_cons.1 hone
    rcases List.mem_cons.1 hp with rfl | hp
    · exact hkept l _ _ hnot (lookup_recreate hseq)
    · exact ih hrest hp

/-! ## Faithful replays -/

/-- What a replay should do. -/
structure Faithful (c : Client) (zk : Zk) (c' : Client) (zk' : Zk) (calls : List Bytes) : Prop where
  calls : calls = c.helper.zoo_path_list.map PathPair.key
  list : c'.helper.zoo_path_list = c.helper.zoo_path_list
  flag : c'.reconnection_flag = false
  ephemeral : ∀ p ∈ c.helper.zoo_path_list, Ephemeral p.flag → ¬ Sequence p.flag →
    zk'.lookup p.key = some ⟨some (cstr p.value), true⟩
  election : ∀ p ∈ c.helper.zoo_path_list, Ephemeral p.flag → Sequence p.flag →
    ∃ digits, p.key ++ digits ∉ zk ∧ p.key ++ digits ∈ zk' ∧
      cstr c'.helper.election_node = fetchNode (p.key ++ digits)

/-- The replay has a result, which is what it should be. -/
def ReplaysFaithfully (env : Env) (c : Client) (zk : Zk) : Prop :=
  ∃ c' zk' calls, connected env (reConnect c) zk = some (c', zk', calls) ∧
    Faithful c zk c' zk' calls

theorem Plain.replaysFaithfully {env : Env} {c : Client} {zk : Zk}
    (hl : Plain c.helper.zoo_path_list) (hmode : c.mode = .register) :
    ReplaysFaithfully env c zk := by
  have hreplay := @replay_spec env c.helper hl [] c.helper.zoo_path_list rfl zk
  have hconnected : connected env (reConnect c) zk =
      some ({ c with reconnection_flag := false },
        c.helper.zoo_path_list.foldl (recreate env) zk,
        c.helper.zoo_path_list.map PathPair.key) := by
    simp [connected, reConnect, hmode, hreplay]
  refine ⟨_, _, _, hconnected, ?_⟩
  exact {
    calls := rfl
    list := rfl
    flag := rfl
    ephemeral := by
      intro p hp heph hseq
      have hnode := @lookup_replayed env _ zk hl.keys p hp hseq
      rwa [decide_eq_true heph] at hnode
    election := fun p hp heph hseq => absurd ⟨heph, hseq⟩ (hl.flags p hp) }

/-! ## Runs of `add_tmp_node` -/

section

variable {φ : Type} {s : ZookeeperHelper φ}

/-- `add_tmp_node` leaves the list alone or records the path in it. -/
theorem addTmpNode_list (path value : Bytes) (flag : Int) (created : Bool)
    (s : ZookeeperHelper φ) :
    (s.addTmpNode path value flag created).2.zoo_path_list = s.zoo_path_list ∨
      (s.addTmpNode path value flag created).2.zoo_path_list =
        record (path.take 255) value flag s.zoo_path_list := by
  rw [addTmpNode_eq]
  split_ifs
  · exact .inl rfl
  · exact .inr rfl
  · exact .inl rfl

/-- Only `add_tmp_node` is called. -/
def OnlyTmpNodes (_ : ZookeeperHelper φ) : RegistryAct φ → Prop
  | .tmpNode .. => True
  | _ => False

/-- The lists that calls of `add_tmp_node` build. -/
def tmpNodes : LTS (ZookeeperHelper φ) (RegistryAct φ) :=
  ZookeeperHelper.registry.restrict OnlyTmpNodes

theorem recorded_of_reach (h : (tmpNodes (φ := φ)).Reach s) : Recorded s.zoo_path_list := by
  refine LTS.Reach.invariant (I := fun s => Recorded s.zoo_path_list) ?_ ?_ h
  · rintro s rfl
    exact ⟨List.nodup_nil, nofun⟩
  · rintro s a s' hrecorded ⟨honly, hexec⟩
    cases a with
    | tmpNode path value flag created =>
      cases hexec
      rcases addTmpNode_list path value flag created s with heq | heq
      · rw [heq]
        exact hrecorded
      · rw [heq]
        exact hrecorded.record _ _ _
    | add event path handle => cases honly
    | remove path => cases honly

end

/-- Without a buffer, an election node is not created. -/
theorem createNode_null {env : Env} {h : Helper} {zk : Zk} {path value : Bytes} {flag : Int}
    {r : Result} (hflag : Ephemeral flag ∧ Sequence flag) (hnew : path ∉ zk)
    (hr : createNode env h zk path value flag none = some r) : r.ret = -1 ∧ r.zk = zk := by
  rw [createNode, if_neg hnew, if_pos hflag, createElection] at hr
  split at hr
  · cases hr
  · unfold createBelow at hr
    dsimp only at hr
    split_ifs at hr
    split at hr
    · cases hr
    · cases hr
      exact ⟨rfl, rfl⟩
    · cases hr

/-- **The replay is faithful** if the list has no election node. -/
theorem replay_faithful {φ : Type} :
    (∀ s : ZookeeperHelper φ, tmpNodes.Reach s →
      (∀ p ∈ s.zoo_path_list, ¬ (Ephemeral p.flag ∧ Sequence p.flag)) →
      ∀ (env : Env) (c : Client) (zk : Zk), c.helper.zoo_path_list = s.zoo_path_list →
        c.mode = .register → ReplaysFaithfully env c zk) ∧
    ∀ (env : Env) (h : Helper) (zk : Zk) (path value : Bytes) (flag : Int) (r : Result),
      Ephemeral flag ∧ Sequence flag → path ∉ zk →
      createNode env h zk path value flag none = some r → r.ret = -1 ∧ r.zk = zk := by
  constructor
  · intro s hreach hflags env c zk hlist hmode
    have hplain : Plain c.helper.zoo_path_list := hlist ▸ ⟨recorded_of_reach hreach, hflags⟩
    exact hplain.replaysFaithfully hmode
  · intro env h zk path value flag r hflag hnew hr
    exact createNode_null hflag hnew hr

/-! ## Samples -/

/-- `/e` and nothing else: the old ephemeral nodes are gone. -/
def expiredZk : Zk := (∅ : Zk).insert [47, 101] ⟨some [32], false⟩

/-- The helper after `add_tmp_node` of this path with this flag; it remembers `10`. -/
def registeredClient (path : Bytes) (flag : Int) : Client :=
  ⟨⟨[⟨path, [118, 0], flag⟩], [49, 48] ++ List.replicate 48 0, List.replicate 20 97⟩,
    .register, false⟩

/-- This `add_tmp_node`. -/
def registerAct (path : Bytes) (flag : Int) : RegistryAct Unit := .tmpNode path [118] flag true

/-- The list after it. -/
def registeredList (path : Bytes) (flag : Int) : ZookeeperHelper Unit :=
  ⟨[⟨path, [118, 0], flag⟩], []⟩

/-- The election node is created, and its name is then fetched from the null pointer. -/
theorem null_buffer :
    ¬ ∀ s : ZookeeperHelper Unit, tmpNodes.Reach s →
      ∀ (env : Env) (c : Client) (zk : Zk), c.helper.zoo_path_list = s.zoo_path_list →
        c.mode = .register → (∀ path node, zk.lookup path = some node → node.ephemeral = false) →
        ReplaysFaithfully env c zk := by
  intro h
  have hstep : tmpNodes.step .new (registerAct [47, 101, 47, 49] 3)
      (registeredList [47, 101, 47, 49] 3) := ⟨trivial, rfl⟩
  have hreach : tmpNodes.Reach (registeredList [47, 101, 47, 49] 3) := .step (.init rfl) hstep
  have hzk : ∀ path node, expiredZk.lookup path = some node → node.ephemeral = false := by
    intro path node hnode
    by_cases hpath : path = [47, 101]
    · subst hpath
      cases hnode
      rfl
    · rw [expiredZk, AList.lookup_insert_ne hpath, AList.lookup_empty] at hnode
      cases hnode
  obtain ⟨c', zk', calls, hconnected, -⟩ := h _ hreach .counting
    (registeredClient [47, 101, 47, 49] 3) expiredZk rfl rfl hzk
  have hnone : connected .counting (reConnect (registeredClient [47, 101, 47, 49] 3)) expiredZk =
      none := rfl
  rw [hnone] at hconnected
  cases hconnected

/-- `/e/p` was added as an election node first, and then as a plain one. -/
theorem replay_faithful_sample :
    ReplaysFaithfully .counting (registeredClient [47, 101, 47, 112] 1) expiredZk := by
  have hfirst : tmpNodes.step .new (registerAct [47, 101, 47, 112] 3)
      (registeredList [47, 101, 47, 112] 3) := ⟨trivial, rfl⟩
  have hsecond : tmpNodes.step (registeredList [47, 101, 47, 112] 3)
      (registerAct [47, 101, 47, 112] 1) (registeredList [47, 101, 47, 112] 1) := ⟨trivial, rfl⟩
  have hreach : tmpNodes.Reach (registeredList [47, 101, 47, 112] 1) :=
    .step (.step (.init rfl) hfirst) hsecond
  have hflags : ∀ p ∈ (registeredList [47, 101, 47, 112] 1).zoo_path_list,
      ¬ (Ephemeral p.flag ∧ Sequence p.flag) := by
    intro p hp
    rw [List.mem_singleton.1 hp]
    decide
  exact replay_faithful.1 _ hreach hflags _ _ _ rfl rfl

end DevTools.Election.Register
