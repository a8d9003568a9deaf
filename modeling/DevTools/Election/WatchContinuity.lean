import DevTools.Election.Watches

/-!
# No change of the children is missed

**Theorem (`children_seen`).** In every run in which nobody deletes the watch node, once
`start_leader_election` has got to its loop: whenever the session is connected, the watcher is at
rest and neither a child event of the watch node nor a new connection is still to be delivered, the
children that the process has read last are the children of the watch node. This holds across lost
connections and expired sessions, and whatever changes between the calls of the two threads.

The proof follows the watch. Every change of the children takes it away and leaves a notification,
so at any time either one of these is still to come or being handled, or the watch is set and what
was read since is still right (`Covered`). It counts that `handle_event` and `re_set_event` set the
watch before they call the callback.

The condition is needed: in `not_seen` the watch node is deleted and created again, which
`handle_event` answers with `zoo_exists` alone. Its children are not watched any more.
-/

namespace DevTools.Election.Watches

namespace World

variable {w : Bytes} {s s' : World}

/-! ## What stands behind a reading -/

/-- `re_set_event` is still to set the watch. -/
inductive Resets : WatcherPc → Prop
  | replaying : Resets .replaying
  | exists (p : EventPair ZkEventFunc) (todo : List (EventPair ZkEventFunc)) :
      Resets (.resetting (p :: todo))
  | child (p : EventPair ZkEventFunc) (todo : List (EventPair ZkEventFunc)) :
      Resets (.resettingChild p todo)

/-- A thread is about to read the children. -/
inductive Reads (s : World) : Prop
  | child : s.watcher = .calling .reader → Reads s
  | connected (p : EventPair ZkEventFunc) (todo : List (EventPair ZkEventFunc)) :
      s.watcher = .callingConnected p todo → Reads s
  | test : s.election = .testing → Reads s

/-- The last reading is right, or another one is sure to come once the session is connected. -/
inductive Covered (w : Bytes) (s : World) : Prop
  | away : s.handle ≠ .connected → Covered w s
  | announced : Notice.session .connected ∈ s.pending → Covered w s
  | resets : Resets s.watcher → Covered w s
  | notified : Notice.node .child w ∈ s.pending → Covered w s
  | handled (e : ZkEvent ZkEventFunc) : s.watcher = .handling e .child w → Covered w s
  | armed : w ∈ s.childWatches → Reads s ∨ s.view = some (s.children w) → Covered w s

/-- The handler that `add_zookeeper_event` registers. -/
def registered : ZkEvent ZkEventFunc := { handler with eventmask := 22 }

/-- Its entry. -/
def entry (w : Bytes) : EventPair ZkEventFunc := ⟨w, registered⟩

theorem entry_key (w : Bytes) : (entry w).key = w := rfl

theorem entry_value (w : Bytes) : (entry w).value = registered := rfl

theorem wantsExists_registered : wantsExists registered.eventmask = true := by decide

theorem wantsChild_registered : wantsChild registered.eventmask = true := by decide

theorem connected_registered : registered.connected_event = .reader := rfl

/-- The watcher works on entries for the watch node. -/
def Handles (w : Bytes) (s : World) : WatcherPc → Prop
  | .handling e _ path => e = registered ∧ path = w ∧ w ∈ s.nodes
  | .resetting todo => (todo ≠ [] → w ∈ s.nodes) ∧ ∀ p ∈ todo, p = entry w
  | .resettingChild p todo | .callingConnected p todo =>
    p = entry w ∧ w ∈ s.nodes ∧ ∀ q ∈ todo, q = entry w
  | _ => True

/-- The election thread has found the watch node. -/
def Joined : ElectionPc → Prop
  | .registering | .waiting | .joining => False
  | _ => True

/-- It has added its handler. -/
def Added : ElectionPc → Prop
  | .settingExists | .settingChild | .testing | .looping => True
  | _ => False

/-- It has set its watches. -/
def Armed : ElectionPc → Prop
  | .testing | .looping => True
  | _ => False

structure Inv (w : Bytes) (s : World) : Prop where
  entries : ∀ p ∈ s.helper.zoo_event_list, p = entry w
  paths : w ∉ s.helper.paths
  listed : Added s.election → s.helper.zoo_event_list ≠ []
  joined : Joined s.election → w ∈ s.nodes
  there : s.helper.zoo_event_list ≠ [] → w ∈ s.nodes
  handles : Handles w s s.watcher
  covered : Armed s.election → Covered w s

/-! ## Changes of the nodes -/

/-- What a change of the nodes or a notification does to a process. -/
structure Disturbs (w : Bytes) (s s' : World) : Prop where
  handle : s'.handle = s.handle
  helper : s'.helper = s.helper
  watcher : s'.watcher = s.watcher
  election : s'.election = s.election
  view : s'.view = s.view
  nodes : w ∈ s.nodes → w ∈ s'.nodes
  pending : ∀ n ∈ s.pending, n ∈ s'.pending
  watch : w ∈ s.childWatches →
    Notice.node .child w ∈ s'.pending ∨ w ∈ s'.childWatches ∧ s'.children w = s.children w

theorem Handles.mono {pc : WatcherPc} (h : Handles w s pc) (hn : w ∈ s.nodes → w ∈ s'.nodes) :
    Handles w s' pc := by
  cases pc with
  | handling e type path => exact ⟨h.1, h.2.1, hn h.2.2⟩
  | resetting todo => exact ⟨fun hne => hn (h.1 hne), h.2⟩
  | resettingChild p todo => exact ⟨h.1, hn h.2.1, h.2.2⟩
  | callingConnected p todo => exact ⟨h.1, hn h.2.1, h.2.2⟩
  | idle => trivial
  | calling f => trivial
  | replaying => trivial
  | reconnecting => trivial

theorem Reads.congr (h : Reads s) (hw : s'.watcher = s.watcher) (he : s'.election = s.election) :
    Reads s' := by
  rcases h with h | ⟨p, todo, h⟩ | h
  · exact .child (hw.trans h)
  · exact .connected p todo (hw.trans h)
  · exact .test (he.trans h)

theorem Covered.disturbs (h : Covered w s) (hd : Disturbs w s s') : Covered w s' := by
  cases h with
  | away h => exact .away (hd.handle ▸ h)
  | announced h => exact .announced (hd.pending _ h)
  | resets h => exact .resets (hd.watcher ▸ h)
  | notified h => exact .notified (hd.pending _ h)
  | handled e h => exact .handled e (hd.watcher.trans h)
  | armed hw h =>
    rcases hd.watch hw with hn | ⟨hw', hc⟩
    · exact .notified hn
    · refine .armed hw' ?_
      rcases h with h | h
      · exact .inl (h.congr hd.watcher hd.election)
      · rw [hd.view, hc]
        exact .inr h

theorem Inv.disturbs (h : Inv w s) (hd : Disturbs w s s') : Inv w s' where
  entries := by
    rw [hd.helper]
    exact h.entries
  paths := by
    rw [hd.helper]
    exact h.paths
  listed := by
    rw [hd.helper, hd.election]
    exact h.listed
  joined := by
    intro hj
    rw [hd.election] at hj
    exact hd.nodes (h.joined hj)
  there := by
    intro hne
    rw [hd.helper] at hne
    exact hd.nodes (h.there hne)
  handles := by
    rw [hd.watcher]
    exact h.handles.mono hd.nodes
  covered := by
    intro ha
    rw [hd.election] at ha
    exact (h.covered ha).disturbs hd

/-- Only what the handle knows of the watches on other nodes changes. -/
theorem disturbs_of_eq (hh : s'.handle = s.handle) (hp : s'.helper = s.helper)
    (hw : s'.watcher = s.watcher) (he : s'.election = s.election) (hv : s'.view = s.view)
    (hn : s'.nodes = s.nodes) (hq : ∀ n ∈ s.pending, n ∈ s'.pending)
    (hc : w ∈ s.childWatches → w ∈ s'.childWatches) : Disturbs w s s' where
  handle := hh
  helper := hp
  watcher := hw
  election := he
  view := hv
  nodes := by
    rw [hn]
    exact id
  pending := hq
  watch := by
    intro h
    refine .inr ⟨hc h, ?_⟩
    rw [children, children, hn]

theorem disturbs_notify (n : Notice) : Disturbs w s (s.notify n) :=
  disturbs_of_eq rfl rfl rfl rfl rfl rfl (fun _ h => List.mem_append_left _ h) id

theorem disturbs_fireExists (type : EventType) (path : Bytes) :
    Disturbs w s (s.fireExists type path) := by
  unfold fireExists
  split_ifs
  · exact disturbs_of_eq rfl rfl rfl rfl rfl rfl (fun _ h => List.mem_append_left _ h) id
  · exact disturbs_of_eq rfl rfl rfl rfl rfl rfl (fun _ h => h) id

theorem Disturbs.trans {s'' : World} (h : Disturbs w s s') (h' : Disturbs w s' s'') :
    Disturbs w s s'' where
  handle := h'.handle.trans h.handle
  helper := h'.helper.trans h.helper
  watcher := h'.watcher.trans h.watcher
  election := h'.election.trans h.election
  view := h'.view.trans h.view
  nodes := fun hn => h'.nodes (h.nodes hn)
  pending := fun n hn => h'.pending n (h.pending n hn)
  watch := by
    intro hw
    rcases h.watch hw with hn | ⟨hw', hc⟩
    · exact .inl (h'.pending _ hn)
    · rcases h'.watch hw' with hn | ⟨hw'', hc'⟩
      · exact .inl hn
      · exact .inr ⟨hw'', hc'.trans hc⟩

theorem disturbs_fireDeleted {path : Bytes} (hne : path ≠ w) :
    Disturbs w s (s.fireDeleted path) := by
  unfold fireDeleted
  split_ifs
  · refine disturbs_of_eq rfl rfl rfl rfl rfl rfl (fun _ h => List.mem_append_left _ h) ?_
    intro h
    exact List.mem_filter.2 ⟨h, by simpa using Ne.symm hne⟩
  · exact disturbs_of_eq rfl rfl rfl rfl rfl rfl (fun _ h => h) id

/-- The node at `path` comes or goes, and the child watch of the node above is triggered. -/
theorem disturbs_fireChild {nodes : List Bytes} {path : Bytes}
    (hkeep : w ∈ s.nodes → w ∈ nodes)
    (hsame : parentOf path ≠ w →
      nodes.filter (parentOf · = w) = s.nodes.filter (parentOf · = w)) :
    Disturbs w s ({ s with nodes := nodes }.fireChild (parentOf path)) := by
  unfold fireChild
  split_ifs with hin
  · refine ⟨rfl, rfl, rfl, rfl, rfl, hkeep, fun _ h => List.mem_append_left _ h, ?_⟩
    intro hw
    by_cases hp : parentOf path = w
    · subst hp
      exact .inl (List.mem_append_right _ List.mem_cons_self)
    · exact .inr ⟨List.mem_filter.2 ⟨hw, by simpa using Ne.symm hp⟩, hsame hp⟩
  · refine ⟨rfl, rfl, rfl, rfl, rfl, hkeep, fun _ h => h, ?_⟩
    intro hw
    have hp : parentOf path ≠ w := by
      rintro rfl
      exact hin hw
    exact .inr ⟨hw, hsame hp⟩

theorem disturbs_create (path : Bytes) : Disturbs w s (s.create path) := by
  have heq : s.create path =
      { s.fireExists .created path with nodes := path :: s.nodes }.fireChild (parentOf path) := by
    unfold create fireExists
    split_ifs <;> rfl
  have hnodes : (s.fireExists .created path).nodes = s.nodes := by
    unfold fireExists
    split_ifs <;> rfl
  rw [heq]
  refine (disturbs_fireExists .created path).trans (disturbs_fireChild ?_ ?_)
  · rw [hnodes]
    exact List.mem_cons_of_mem path
  · intro hp
    rw [hnodes, List.filter_cons_of_neg (by simpa using hp)]

theorem disturbs_delete {path : Bytes} (hne : path ≠ w) : Disturbs w s (s.delete path) := by
  have heq : s.delete path = { s.fireDeleted path with
      nodes := s.nodes.filter (· ≠ path) }.fireChild (parentOf path) := by
    unfold delete fireDeleted
    dsimp only
    split_ifs <;> rfl
  have hnodes : (s.fireDeleted path).nodes = s.nodes := by
    unfold fireDeleted
    split_ifs <;> rfl
  rw [heq]
  refine (disturbs_fireDeleted hne).trans (disturbs_fireChild ?_ ?_)
  · rw [hnodes]
    intro h
    exact List.mem_filter.2 ⟨h, by simpa using Ne.symm hne⟩
  · intro hp
    rw [hnodes, List.filter_filter]
    refine List.filter_congr ?_
    intro q _
    have hq : parentOf q = w → q ≠ path := by
      rintro hq rfl
      exact hp hq
    simpa using hq

/-! ## The calls -/

theorem zooExists_snd (path : Bytes) : Disturbs w s (s.zooExists path).2 := by
  by_cases hc : s.handle = .connected
  · rw [zooExists, if_pos hc]
    exact disturbs_of_eq rfl rfl rfl rfl rfl rfl (fun _ h => h) id
  · rw [zooExists, if_neg hc]
    exact disturbs_of_eq rfl rfl rfl rfl rfl rfl (fun _ h => h) id

theorem zooGetChildren_snd (path : Bytes) : Disturbs w s (s.zooGetChildren path).2 := by
  unfold zooGetChildren
  split_ifs
  · exact disturbs_of_eq rfl rfl rfl rfl rfl rfl (fun _ h => h) (List.mem_cons_of_mem path)
  · exact disturbs_of_eq rfl rfl rfl rfl rfl rfl (fun _ h => h) id
  · exact disturbs_of_eq rfl rfl rfl rfl rfl rfl (fun _ h => h) id

theorem zooGetChildren_armed (hw : w ∈ s.nodes) (hc : s.handle = .connected) :
    w ∈ (s.zooGetChildren w).2.childWatches := by
  rw [zooGetChildren, if_pos hc, if_pos hw]
  exact List.mem_cons_self

/-- The watch node is there: `zoo_exists` fails only without a connection. -/
theorem setExists_spec (hw : w ∈ s.nodes) (r : Bool) :
    Disturbs w s (s.setExists w r).2 ∧
      ((s.setExists w r).1 = false → (s.setExists w r).2.handle ≠ .connected) := by
  have hd := @zooExists_snd w s w
  unfold setExists
  by_cases hc : s.handle = .connected
  · have hok : (s.zooExists w).1 = .ok := by simp [zooExists, hc, hw]
    rcases hx : s.zooExists w with ⟨a, t⟩
    rw [hx] at hd hok
    obtain rfl : a = .ok := hok
    exact ⟨hd, nofun⟩
  · have herr : s.zooExists w = (.error, s) := by rw [zooExists, if_neg hc]
    rw [herr] at hd ⊢
    exact ⟨hd, fun _ => hc⟩

/-- Where `zoo_get_children` comes out, the watch is set. -/
theorem setChild_spec (hw : w ∈ s.nodes) (r : Bool) :
    Disturbs w s (s.setChild w r).2 ∧
      ((s.setChild w r).1 = false → (s.setChild w r).2.handle ≠ .connected) ∧
      ((s.setChild w r).1 = true → w ∈ (s.setChild w r).2.childWatches) := by
  have hd := @zooGetChildren_snd w s w
  unfold setChild
  by_cases hc : s.handle = .connected
  · have harmed := zooGetChildren_armed hw hc
    have hok : (s.zooGetChildren w).1 = .ok := by simp [zooGetChildren, hc, hw]
    rcases hx : s.zooGetChildren w with ⟨a, t⟩
    rw [hx] at hd hok harmed
    obtain rfl : a = .ok := hok
    exact ⟨hd, nofun, fun _ => harmed⟩
  · have herr : s.zooGetChildren w = (.error, s) := by rw [zooGetChildren, if_neg hc]
    rw [herr] at hd ⊢
    exact ⟨hd, fun _ => hc, nofun⟩

/-! ## The thread of `watcher` -/

/-- What is left to show where the lists, the nodes and the election thread are as they were. -/
theorem Inv.same (h : Inv w s) (hp : s'.helper = s.helper) (hn : s'.nodes = s.nodes)
    (he : s'.election = s.election) (hh : Handles w s s'.watcher)
    (hc : Armed s.election → Covered w s') : Inv w s' where
  entries := by
    rw [hp]
    exact h.entries
  paths := by
    rw [hp]
    exact h.paths
  listed := by
    rw [hp, he]
    exact h.listed
  joined := by
    rw [hn, he]
    exact h.joined
  there := by
    rw [hp, hn]
    exact h.there
  handles := hh.mono fun hw => hn ▸ hw
  covered := by
    rw [he]
    exact hc

theorem Inv.setWatcher {pc : WatcherPc} {v : Option (List Bytes)} (h : Inv w s)
    (hh : Handles w s pc)
    (hc : Armed s.election → Covered w { s with watcher := pc, view := v }) :
    Inv w { s with watcher := pc, view := v } :=
  h.same rfl rfl rfl hh hc

/-- The watcher goes on from a place where it had nothing to set; what it was about to read, it has
read. -/
theorem Covered.leave {pc : WatcherPc} {v : Option (List Bytes)} (h : Covered w s)
    (hpc : ¬ Resets s.watcher) (hnot : ∀ e, s.watcher ≠ .handling e .child w)
    (hread : s.handle = .connected → Reads s ∨ s.view = some (s.children w) →
      Reads { s with watcher := pc, view := v } ∨ v = some (s.children w)) :
    Covered w { s with watcher := pc, view := v } := by
  cases h with
  | away h => exact .away h
  | announced h => exact .announced h
  | resets h => exact absurd h hpc
  | notified h => exact .notified h
  | handled e h => exact absurd h (hnot e)
  | armed hw h =>
    by_cases hc : s.handle = .connected
    · exact .armed hw (hread hc h)
    · exact .away hc

/-- The same where the watcher was not about to read. -/
theorem Covered.pass {pc : WatcherPc} (h : Covered w s) (hpc : ¬ Resets s.watcher)
    (hnot : ∀ e, s.watcher ≠ .handling e .child w) (hcall : s.watcher ≠ .calling .reader)
    (hcon : ∀ p todo, s.watcher ≠ .callingConnected p todo) :
    Covered w { s with watcher := pc } := by
  refine @Covered.leave w s pc s.view h hpc hnot ?_
  rintro - (h | h)
  · rcases h with h | ⟨p, todo, h⟩ | h
    · exact absurd h hcall
    · exact absurd h (hcon p todo)
    · exact .inl (.test h)
  · exact .inr h

/-- After a call of a reader. -/
theorem Covered.read {pc : WatcherPc} (h : Covered w s) (hw : w ∈ s.nodes)
    (hpc : ¬ Resets s.watcher) (hnot : ∀ e, s.watcher ≠ .handling e .child w) :
    Covered w { s.read w with watcher := pc } := by
  refine @Covered.leave w s pc (s.read w).view h hpc hnot ?_
  intro hc _
  exact .inr (if_pos ⟨hc, hw⟩)

theorem Joined.of_armed {pc : ElectionPc} (h : Armed pc) : Joined pc := by
  cases pc <;> trivial

theorem inv_handleEvent {e : ZkEvent ZkEventFunc} {type : EventType} {path : Bytes}
    (h : Inv w s) (hpc : s.watcher = .handling e type path) :
    Inv w (s.handleEvent e type path) := by
  obtain ⟨rfl, rfl, hw⟩ : e = registered ∧ path = w ∧ w ∈ s.nodes := by
    have hh := h.handles
    rwa [hpc] at hh
  have hres : ¬ Resets s.watcher := by
    rw [hpc]
    nofun
  by_cases htype : type = .child
  · subst htype
    -- the watch is set, and the reader is next
    have hd := @zooGetChildren_snd path s path
    unfold handleEvent
    rw [if_pos (by decide)]
    refine (h.disturbs hd).setWatcher trivial ?_
    intro _
    by_cases hc : s.handle = .connected
    · exact .armed (zooGetChildren_armed hw hc) (.inl (.child rfl))
    · exact .away (hd.handle ▸ hc)
  · have hnot : ∀ e', s.watcher ≠ .handling e' .child path := by
      intro e' heq
      rw [hpc] at heq
      cases heq
      exact htype rfl
    have hpass : ∀ t, Disturbs path s t → ∀ f, Inv path { t with watcher := .calling f } := by
      intro t hd f
      refine (h.disturbs hd).setWatcher trivial ?_
      intro harmed
      refine ((h.disturbs hd).covered harmed).pass ?_ ?_ ?_ ?_
      · rw [hd.watcher]
        exact hres
      · intro e'
        rw [hd.watcher]
        exact hnot e'
      · rw [hd.watcher, hpc]
        nofun
      · rw [hd.watcher, hpc]
        nofun
    cases type with
    | child => exact absurd rfl htype
    | created =>
      unfold handleEvent
      rw [if_pos (by decide)]
      exact hpass _ (zooExists_snd path) _
    | deleted =>
      unfold handleEvent
      rw [if_pos (by decide)]
      exact hpass _ (zooExists_snd path) _
    | changed =>
      unfold handleEvent
      rw [if_neg (by decide)]
      refine h.setWatcher trivial ?_
      intro harmed
      refine (h.covered harmed).pass hres hnot ?_ ?_
      · rw [hpc]
        nofun
      · rw [hpc]
        nofun

theorem inv_calling {f : ZkEventFunc} (h : Inv w s) (hpc : s.watcher = .calling f) :
    Inv w { s.call w f with watcher := .idle } := by
  have hres : ¬ Resets s.watcher := by
    rw [hpc]
    nofun
  have hnot : ∀ e, s.watcher ≠ .handling e .child w := by
    rw [hpc]
    nofun
  cases f with
  | null =>
    refine h.setWatcher trivial ?_
    intro harmed
    refine (h.covered harmed).pass hres hnot ?_ ?_
    · rw [hpc]
      nofun
    · rw [hpc]
      nofun
  | reader =>
    refine h.setWatcher trivial ?_
    intro harmed
    exact (h.covered harmed).read (h.joined (.of_armed harmed)) hres hnot

theorem Inv.list_cons (h : Inv w s) (harmed : Armed s.election) :
    ∃ todo, s.helper.zoo_event_list = entry w :: todo := by
  have hadded : Added s.election := by
    cases hs : s.election <;> rw [hs] at harmed <;> trivial
  have hne := h.listed hadded
  have hall := h.entries
  cases hl : s.helper.zoo_event_list with
  | nil => exact absurd hl hne
  | cons p todo =>
    rw [hl] at hall
    exact ⟨todo, by rw [hall p List.mem_cons_self]⟩

theorem Inv.handles_list (h : Inv w s) : Handles w s (.resetting s.helper.zoo_event_list) :=
  ⟨h.there, h.entries⟩

theorem Inv.resets_list (h : Inv w s) (harmed : Armed s.election) :
    Resets (.resetting s.helper.zoo_event_list) := by
  obtain ⟨todo, hl⟩ := h.list_cons harmed
  rw [hl]
  exact .exists _ _

theorem inv_resetting {p : EventPair ZkEventFunc} {todo : List (EventPair ZkEventFunc)} {r : Bool}
    (h : Inv w s) (hpc : s.watcher = .resetting (p :: todo)) (hs : s.watcherStep w r = some s') :
    Inv w s' := by
  have hh := h.handles
  rw [hpc] at hh
  have hw := hh.1 (List.cons_ne_nil p todo)
  obtain rfl : p = entry w := hh.2 p List.mem_cons_self
  have htodo : ∀ q ∈ todo, q = entry w := fun q hq => hh.2 q (List.mem_cons_of_mem _ hq)
  obtain ⟨hd, hfail⟩ := setExists_spec hw r
  simp only [watcherStep, hpc, entry_key, entry_value, wantsExists_registered, if_true] at hs
  by_cases hok : (s.setExists w r).1 = true
  · simp only [hok, if_true] at hs
    cases hs
    exact (h.disturbs hd).setWatcher ⟨rfl, hd.nodes hw, htodo⟩ fun _ => .resets (.child _ _)
  · simp only [hok] at hs
    cases hs
    exact (h.disturbs hd).setWatcher ⟨fun _ => hd.nodes hw, htodo⟩
      fun _ => .away (hfail (Bool.eq_false_of_not_eq_true hok))

theorem inv_resettingChild {p : EventPair ZkEventFunc} {todo : List (EventPair ZkEventFunc)}
    {r : Bool} (h : Inv w s) (hpc : s.watcher = .resettingChild p todo)
    (hs : s.watcherStep w r = some s') : Inv w s' := by
  have hh := h.handles
  rw [hpc] at hh
  obtain ⟨rfl, hw, htodo⟩ := hh
  obtain ⟨hd, hfail, harmed⟩ := setChild_spec hw r
  simp only [watcherStep, hpc, entry_key, entry_value, wantsChild_registered, if_true] at hs
  by_cases hok : (s.setChild w r).1 = true
  · simp only [hok, if_true] at hs
    cases hs
    exact (h.disturbs hd).setWatcher ⟨rfl, hd.nodes hw, htodo⟩
      fun _ => .armed (harmed hok) (.inl (.connected _ _ rfl))
  · simp only [hok] at hs
    cases hs
    exact (h.disturbs hd).setWatcher ⟨fun _ => hd.nodes hw, htodo⟩
      fun _ => .away (hfail (Bool.eq_false_of_not_eq_true hok))

theorem inv_callingConnected {p : EventPair ZkEventFunc} {todo : List (EventPair ZkEventFunc)}
    {r : Bool} (h : Inv w s) (hpc : s.watcher = .callingConnected p todo)
    (hs : s.watcherStep w r = some s') : Inv w s' := by
  have hh := h.handles
  rw [hpc] at hh
  obtain ⟨rfl, hw, htodo⟩ := hh
  simp only [watcherStep, hpc, entry_value, connected_registered, reduceCtorEq, if_false] at hs
  cases hs
  refine h.setWatcher ⟨fun _ => hw, htodo⟩ ?_
  intro harmed
  refine (h.covered harmed).read hw ?_ ?_
  · rw [hpc]
    nofun
  · rw [hpc]
    nofun

theorem inv_watcherStep {r : Bool} (h : Inv w s) (hs : s.watcherStep w r = some s') :
    Inv w s' := by
  cases hpc : s.watcher with
  | idle =>
    simp only [watcherStep, hpc] at hs
    cases hs
  | handling e type path =>
    simp only [watcherStep, hpc] at hs
    cases hs
    exact inv_handleEvent h hpc
  | calling f =>
    simp only [watcherStep, hpc] at hs
    cases hs
    exact inv_calling h hpc
  | replaying =>
    simp only [watcherStep, hpc] at hs
    cases hs
    exact h.same rfl rfl rfl h.handles_list fun harmed => .resets (h.resets_list harmed)
  | resetting todo =>
    cases todo with
    | nil =>
      simp only [watcherStep, hpc] at hs
      cases hs
      refine h.setWatcher trivial ?_
      intro harmed
      refine (h.covered harmed).pass ?_ ?_ ?_ ?_
      all_goals
        rw [hpc]
        nofun
    | cons p todo => exact inv_resetting h hpc hs
  | resettingChild p todo => exact inv_resettingChild h hpc hs
  | callingConnected p todo => exact inv_callingConnected h hpc hs
  | reconnecting =>
    simp only [watcherStep, hpc] at hs
    cases hs
    refine h.same rfl rfl rfl trivial fun _ => .away ?_
    cases r <;> nofun

/-! ## Notifications -/

/-- A notification that `Covered` does not count on is taken out. -/
theorem Covered.pop {n : Notice} {rest : List Notice} (h : Covered w s)
    (hq : s.pending = n :: rest) (hcon : n ≠ .session .connected) (hchild : n ≠ .node .child w) :
    Covered w { s with pending := rest } := by
  cases h with
  | away h => exact .away h
  | announced h =>
    rw [hq] at h
    exact .announced (List.mem_of_ne_of_mem (Ne.symm hcon) h)
  | resets h => exact .resets h
  | notified h =>
    rw [hq] at h
    exact .notified (List.mem_of_ne_of_mem (Ne.symm hchild) h)
  | handled e h => exact .handled e h
  | armed hw h =>
    refine .armed hw ?_
    rcases h with h | h
    · exact .inl (h.congr rfl rfl)
    · exact .inr h

theorem find?_list (h : Inv w s) {path : Bytes} {p : EventPair ZkEventFunc}
    (hp : s.helper.zoo_event_list.find? (·.key = path) = some p) :
    p = entry w ∧ path = w ∧ w ∈ s.nodes := by
  have hmem := List.mem_of_find?_eq_some hp
  have hkey := List.find?_some hp
  obtain rfl : p = entry w := h.entries p hmem
  refine ⟨rfl, ?_, h.there (List.ne_nil_of_mem hmem)⟩
  exact Eq.symm (of_decide_eq_true hkey)

theorem inv_dispatch {n : Notice} {rest : List Notice} (h : Inv w s) (hidle : s.watcher = .idle)
    (hq : s.pending = n :: rest) : Inv w ({ s with pending := rest }.dispatch n) := by
  -- the watcher was at rest, so all that can be lost is the notification
  have hpop : n ≠ .session .connected → n ≠ .node .child w → ∀ pc, Armed s.election →
      Covered w { s with pending := rest, watcher := pc } := by
    intro hcon hchild pc harmed
    refine ((h.covered harmed).pop hq hcon hchild).pass ?_ ?_ ?_ ?_
    all_goals
      rw [show ({ s with pending := rest } : World).watcher = .idle from hidle]
      nofun
  have hstay : n ≠ .session .connected → n ≠ .node .child w →
      Inv w { s with pending := rest } := by
    intro hcon hchild
    refine h.same rfl rfl rfl h.handles ?_
    intro harmed
    exact (h.covered harmed).pop hq hcon hchild
  cases n with
  | session state =>
    cases state with
    | connected =>
      unfold dispatch
      dsimp only
      split_ifs
      · exact h.same rfl rfl rfl trivial fun _ => .resets .replaying
      · exact h.same rfl rfl rfl h.handles_list fun harmed => .resets (h.resets_list harmed)
    | authFailed => exact h.same rfl rfl rfl h.handles fun _ => .away nofun
    | expired => exact h.same rfl rfl rfl trivial (hpop nofun nofun _)
    | connecting => exact hstay nofun nofun
  | node type path =>
    unfold dispatch
    dsimp only
    cases hfind : s.helper.zoo_event_list.find? (·.key = path) with
    | some p =>
      obtain ⟨rfl, rfl, hw⟩ := find?_list h hfind
      refine h.same rfl rfl rfl ⟨rfl, rfl, hw⟩ ?_
      intro harmed
      by_cases htype : type = .child
      · subst htype
        exact .handled _ rfl
      · refine hpop nofun ?_ _ harmed
        intro heq
        cases heq
        exact htype rfl
    | none =>
      refine h.same rfl rfl rfl h.handles ?_
      intro harmed
      refine (h.covered harmed).pop hq nofun ?_
      intro heq
      cases heq
      obtain ⟨todo, hl⟩ := h.list_cons harmed
      rw [hl, List.find?_cons_of_pos (by simp [entry_key])] at hfind
      cases hfind

/-! ## The election thread -/

theorem notMem_paths_addTmpNode {path value : Bytes} {flag : Int}
    (h : w ∉ s.helper.paths) (hne : path.take 255 ≠ w) :
    w ∉ (s.helper.addTmpNode path value flag true).2.paths := by
  unfold ZookeeperHelper.paths at h ⊢
  rcases Register.addTmpNode_list path value flag true s.helper with heq | heq
  · rw [heq]
    exact h
  · rw [heq]
    unfold Register.record
    split_ifs
    · rw [Register.updateFirst_keys]
      · exact h
      · intro p
        rfl
    · rw [List.map_cons, List.mem_cons, not_or]
      exact ⟨Ne.symm hne, h⟩

/-- `test_event`: it returns at once when it cannot read. -/
theorem inv_test (h : Inv w s) (harmed : Armed s.election) (hidle : s.watcher = .idle) :
    Inv w { s with
      view := if s.handle = .connected ∧ w ∈ s.nodes then some (s.children w) else s.view
      election := .looping } := by
  have hw := h.joined (.of_armed harmed)
  have hlisted : s.helper.zoo_event_list ≠ [] := by
    obtain ⟨todo, hl⟩ := h.list_cons harmed
    rw [hl]
    exact List.cons_ne_nil _ _
  refine ⟨h.entries, h.paths, fun _ => hlisted, fun _ => hw, h.there, h.handles.mono id, ?_⟩
  intro _
  cases h.covered harmed with
  | away h => exact .away h
  | announced h => exact .announced h
  | resets h =>
    rw [hidle] at h
    cases h
  | notified h => exact .notified h
  | handled e h =>
    rw [hidle] at h
    cases h
  | armed hw' _ =>
    by_cases hc : s.handle = .connected
    · exact .armed hw' (.inr (if_pos ⟨hc, hw⟩))
    · exact .away hc

theorem inv_electionStep {r : Bool} (hlen : w.length ≤ 253) (h : Inv w s)
    (hs : s.electionStep w r = some s') : Inv w s' := by
  cases hpc : s.election with
  | registering =>
    simp only [electionStep, hpc] at hs
    cases hs
    cases r
    · exact ⟨h.entries, h.paths, nofun, nofun, h.there, h.handles.mono id, nofun⟩
    · exact ⟨h.entries, h.paths, nofun, nofun, h.there, h.handles.mono id, nofun⟩
  | waiting =>
    simp only [electionStep, hpc] at hs
    split_ifs at hs
    · cases hs
      exact ⟨h.entries, h.paths, nofun, nofun, h.there, h.handles.mono id, nofun⟩
    · cases hs
      exact ⟨h.entries, h.paths, nofun, nofun, h.there, h.handles.mono id, nofun⟩
  | joining =>
    simp only [electionStep, hpc] at hs
    split_ifs at hs with hidle hr hw
    · cases hs
      have hlist := s.helper.addTmpNode_events (w ++ [47, 49]) s.election_uuid 3 true
      have hne : (w ++ [47, 49]).take 255 ≠ w := by
        intro heq
        have hlength := congrArg List.length heq
        rw [List.length_take, List.length_append, List.length_cons, List.length_singleton]
          at hlength
        omega
      refine ⟨?_, notMem_paths_addTmpNode h.paths hne, nofun, fun _ => hw.2, fun _ => hw.2,
        h.handles.mono id, nofun⟩
      rw [hlist]
      exact h.entries
    · cases hs
      exact ⟨h.entries, h.paths, nofun, nofun, h.there, h.handles.mono id, nofun⟩
  | adding =>
    have hw : w ∈ s.nodes := h.joined (hpc ▸ trivial)
    simp only [electionStep, hpc] at hs
    split_ifs at hs
    cases hs
    rw [ZookeeperHelper.addEvent_of_fresh h.paths]
    refine ⟨?_, h.paths, fun _ => List.cons_ne_nil _ _, fun _ => hw, fun _ => hw,
      h.handles.mono id, nofun⟩
    intro p hp
    rcases List.mem_cons.1 hp with rfl | hp
    · rfl
    · exact h.entries p hp
  | settingExists =>
    have hw : w ∈ s.nodes := h.joined (hpc ▸ trivial)
    obtain ⟨hd, -⟩ := setExists_spec hw r
    have h' := h.disturbs hd
    have hlisted := h.listed (hpc ▸ trivial)
    simp only [electionStep, hpc] at hs
    cases hs
    split_ifs
    · exact ⟨h'.entries, h'.paths, fun _ => hd.helper ▸ hlisted, fun _ => hd.nodes hw, h'.there,
        h'.handles.mono id, nofun⟩
    · exact ⟨h'.entries, h'.paths, nofun, nofun, h'.there, h'.handles.mono id, nofun⟩
  | settingChild =>
    have hw : w ∈ s.nodes := h.joined (hpc ▸ trivial)
    obtain ⟨hd, -, harmed⟩ := setChild_spec hw r
    have h' := h.disturbs hd
    have hlisted := h.listed (hpc ▸ trivial)
    simp only [electionStep, hpc] at hs
    cases hs
    split_ifs with hok
    · exact ⟨h'.entries, h'.paths, fun _ => hd.helper ▸ hlisted, fun _ => hd.nodes hw, h'.there,
        h'.handles.mono id, fun _ => .armed (harmed hok) (.inl (.test rfl))⟩
    · exact ⟨h'.entries, h'.paths, nofun, nofun, h'.there, h'.handles.mono id, nofun⟩
  | testing | looping =>
    have htest := @inv_test w s h (hpc ▸ trivial)
    simp only [electionStep, hpc] at hs
    split_ifs at hs with hidle hread
    · cases hs
      have hinv := htest (not_not.1 hidle)
      rw [if_pos hread] at hinv
      simpa only [read, if_pos hread] using hinv
    · cases hs
      have hinv := htest (not_not.1 hidle)
      rwa [if_neg hread] at hinv

/-! ## Runs -/

/-- Nobody deletes the watch node. -/
def Kept (w : Bytes) (_ : World) : Act → Prop
  | .delete path => path ≠ w
  | _ => True

theorem inv_step {a : Act} (hlen : w.length ≤ 253) (h : Inv w s) (hkept : Kept w s a)
    (hs : s.next w a = some s') : Inv w s' := by
  cases a with
  | create path =>
    simp only [next] at hs
    split_ifs at hs
    cases hs
    exact h.disturbs (disturbs_create path)
  | delete path =>
    simp only [next] at hs
    split_ifs at hs
    cases hs
    exact h.disturbs (disturbs_delete hkept)
  | change path =>
    cases hs
    exact h.disturbs (disturbs_fireExists _ path)
  | connect =>
    simp only [next] at hs
    split_ifs at hs
    cases hs
    exact h.same rfl rfl rfl h.handles
      fun _ => .announced (List.mem_append_right _ List.mem_cons_self)
  | disconnect kept =>
    simp only [next] at hs
    split_ifs at hs
    cases hs
    exact h.same rfl rfl rfl h.handles fun _ => .away nofun
  | expire =>
    simp only [next] at hs
    split_ifs at hs
    cases hs
    exact h.same rfl rfl rfl h.handles fun _ => .away nofun
  | authFail =>
    simp only [next] at hs
    split_ifs at hs
    cases hs
    exact h.same rfl rfl rfl h.handles fun _ => .away nofun
  | stray n =>
    cases hs
    exact h.disturbs (disturbs_notify n)
  | deliver =>
    simp only [next] at hs
    split at hs
    · cases hs
      exact inv_dispatch h ‹_› ‹_›
    · cases hs
  | watcher r => exact inv_watcherStep h hs
  | election r => exact inv_electionStep hlen h hs

theorem inv_reach (hlen : w.length ≤ 253) (h : ((system w).restrict (Kept w)).Reach s) :
    Inv w s := by
  refine LTS.Reach.invariant (T := (system w).restrict (Kept w)) ?_
    (fun s a s' hi ha => inv_step hlen hi ha.1 ha.2) h
  rintro s ⟨-, -, -, -, hhelper, -, -, hwatcher, helection, -⟩
  refine ⟨?_, ?_, ?_, ?_, ?_, ?_, ?_⟩
  · rw [hhelper]
    nofun
  · rw [hhelper]
    nofun
  · rw [helection]
    nofun
  · rw [helection]
    nofun
  · rw [hhelper]
    intro hne
    exact absurd rfl hne
  · rw [hwatcher]
    trivial
  · rw [helection]
    nofun

/-- The watcher is at rest and has nothing of its own to deliver. -/
structure Quiet (w : Bytes) (s : World) : Prop where
  connected : s.handle = .connected
  idle : s.watcher = .idle
  announced : Notice.session .connected ∉ s.pending
  notified : Notice.node .child w ∉ s.pending

/-- **No change of the children is missed.** -/
theorem children_seen (hlen : w.length ≤ 253) (h : ((system w).restrict (Kept w)).Reach s)
    (hloop : s.election = .looping) (hquiet : Quiet w s) : s.view = some (s.children w) := by
  have harmed : Armed s.election := by
    rw [hloop]
    trivial
  cases (inv_reach hlen h).covered harmed with
  | away h => exact absurd hquiet.connected h
  | announced h => exact absurd h hquiet.announced
  | resets h =>
    rw [hquiet.idle] at h
    cases h
  | notified h => exact absurd h hquiet.notified
  | handled e h =>
    rw [hquiet.idle] at h
    cases h
  | armed _ h =>
    rcases h with h | h
    · rcases h with h | ⟨p, todo, h⟩ | h
      · rw [hquiet.idle] at h
        cases h
      · rw [hquiet.idle] at h
        cases h
      · rw [hloop] at h
        cases h
    · exact h

/-! ## Samples -/

/-- A process before its election thread starts; there are no nodes. -/
def sampleStart : World :=
  { nodes := []
    existsWatches := []
    childWatches := []
    pending := []
    handle := .dead
    helper := .new
    election_uuid := List.replicate 20 97
    mode := .connection
    reconnection_flag := false
    watcher := .idle
    election := .registering
    view := none }

/-- `/w` is there, and the election thread gets to its loop. -/
def sampleJoin : List Act :=
  [.create [47, 119], .election true, .connect, .deliver, .watcher true, .election true,
    .election true, .election true, .election true, .election true, .election true]

def sampleRun (as : List Act) : World := (as.foldlM (next [47, 119]) sampleStart).getD sampleStart

/-- A child comes, and the watcher answers the notification. -/
def sampleChild : List Act :=
  sampleJoin ++ [.create [47, 119, 47, 49], .deliver, .watcher true, .watcher true]

theorem children_seen_sample :
    Quiet [47, 119] (sampleRun sampleChild) ∧
      (sampleRun sampleChild).view = some [[47, 119, 47, 49]] := by
  have hstart : ((system [47, 119]).restrict (Kept [47, 119])).Reach sampleStart :=
    .init ⟨rfl, rfl, rfl, rfl, rfl, rfl, rfl, rfl, rfl, rfl⟩
  have hkept : ∀ a ∈ sampleChild, ∀ s, Kept [47, 119] s a := by
    simp [sampleChild, sampleJoin, Kept]
  have hrun : sampleChild.foldlM (next [47, 119]) sampleStart = some (sampleRun sampleChild) := by
    decide +kernel
  have hreach := hstart.exec_restrict (fun _ _ _ h => h) hkept hrun
  have hquiet : Quiet [47, 119] (sampleRun sampleChild) :=
    ⟨by decide +kernel, by decide +kernel, by decide +kernel, by decide +kernel⟩
  refine ⟨hquiet, ?_⟩
  rw [children_seen (by decide) hreach (by decide +kernel) hquiet]
  decide +kernel

/-- `/w` goes and comes back, and after that a child comes. -/
def sampleLost : List Act :=
  sampleJoin ++ [.delete [47, 119], .deliver, .watcher true, .watcher true, .create [47, 119],
    .deliver, .watcher true, .watcher true, .create [47, 119, 47, 49]]

/-- The child is never seen. -/
theorem not_seen : ∃ s, (system [47, 119]).Reach s ∧ s.election = .looping ∧ Quiet [47, 119] s ∧
    s.pending = [] ∧ s.view ≠ some (s.children [47, 119]) := by
  have hstart : (system [47, 119]).Reach sampleStart :=
    .init ⟨rfl, rfl, rfl, rfl, rfl, rfl, rfl, rfl, rfl, rfl⟩
  have hrun : sampleLost.foldlM (next [47, 119]) sampleStart = some (sampleRun sampleLost) := by
    decide +kernel
  have hreach := hstart.exec (fun _ _ _ h => h) hrun
  have hquiet : Quiet [47, 119] (sampleRun sampleLost) :=
    ⟨by decide +kernel, by decide +kernel, by decide +kernel, by decide +kernel⟩
  exact ⟨_, hreach, by decide +kernel, hquiet, by decide +kernel, by decide +kernel⟩

end World

end DevTools.Election.Watches
