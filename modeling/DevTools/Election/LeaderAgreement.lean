import DevTools.Election.Handlers

/-!
# Leader agreement in settled states

**Theorem (`agreement`).** In every run whose steps meet `Sound`, a settled state has at most one
registered live instance, and that one has the least child.

`Sound` leaves out three kinds of step. `child_event` must not find the node of a registered
instance missing from the list it has read: its branch for that case adds a node and stays
registered. The other thread must not register the instance between the two calls of
`test_event`'s branch for a missing node. And `zoo_exists` must not fail on a remembered node
that is there, because `create_node` then goes on to replace `election_node`.

The invariant ties a registration to the list it rests on: the least name of that list is still
the instance's node, or it is gone for good. In a settled state the list is the current one and
the name is not gone.
-/

namespace DevTools.Election

namespace Cluster

variable {ι : Type} [DecidableEq ι] {uuid : ι → String} {s s' : Cluster ι} {act : Act ι}

/-- The steps that do not run into the defects of the handlers. -/
def Sound (s : Cluster ι) : Act ι → Prop
  | .decide .child i => ∀ l, (s.inst i).pc .child = .got (some l) → (s.inst i).isregister →
      (s.inst i).electionNode ∈ l
  | .create i a => (s.inst i).electionNode ∈ s.names → a.existsNode
  | .add .child i a => (s.inst i).electionNode ∈ s.names → a.existsNode
  | .add .test i a => ¬ (s.inst i).isregister ∧
      ((s.inst i).electionNode ∈ s.names → a.existsNode)
  | _ => True

/-! ## The invariant -/

/-- The least name of the list was created, and is the instance's node or gone. -/
def Holds (s : Cluster ι) (x : Instance) (read : Option (List String)) : Prop :=
  ∃ m ∈ read.getD [], (∀ n ∈ read.getD [], m ≤ n) ∧ (∃ j, s.creator m = some j) ∧
    (x.electionNode = m ∨ m ∉ s.names)

/-- What is known of one instance. -/
structure Good (uuid : ι → String) (s : Cluster ι) (i : ι) (x : Instance) : Prop where
  node : x.electionNode = "" ∨ x.electionNode = uuid i ∨ s.creator x.electionNode = some i
  got : ∀ h read, x.pc h = .got read → ∀ n ∈ read.getD [], ∃ j, s.creator n = some j
  leading : ∀ h read, x.pc h = .leading read → Holds s x read
  registered : x.isregister → ∀ l, x.last = some l → Holds s x (some l)
  resigning : ∀ read andAdd, x.pc .child = .resigning read andAdd → andAdd = false
  adding : ∀ read, x.pc .child = .adding read → read = none

structure Inv (uuid : ι → String) (s : Cluster ι) : Prop where
  created : ∀ n ∈ s.names, ∃ i, s.creator n = some i
  valid : ∀ n i, s.creator n = some i → n ≠ "" ∧ ∀ j, n ≠ uuid j
  good : ∀ i, Good uuid s i (s.inst i)

/-- What a step of ZooKeeper leaves in place: who created a name, and that a gone name is
gone. -/
structure Grows (s s' : Cluster ι) : Prop where
  creator : ∀ n i, s.creator n = some i → s'.creator n = some i
  gone : ∀ n i, s.creator n = some i → n ∉ s.names → n ∉ s'.names

omit [DecidableEq ι] in
theorem Holds.mono {x : Instance} {read : Option (List String)} (h : Holds s x read)
    (hg : Grows s s') : Holds s' x read := by
  obtain ⟨m, hm, hle, ⟨j, hj⟩, hnode⟩ := h
  refine ⟨m, hm, hle, ⟨j, hg.creator m j hj⟩, ?_⟩
  rcases hnode with hnode | hgone
  · exact .inl hnode
  · exact .inr (hg.gone m j hj hgone)

omit [DecidableEq ι] in
theorem Good.mono {i : ι} {x : Instance} (h : Good uuid s i x) (hg : Grows s s') :
    Good uuid s' i x where
  node := by
    rcases h.node with hn | hn | hn
    · exact .inl hn
    · exact .inr (.inl hn)
    · exact .inr (.inr (hg.creator _ _ hn))
  got := by
    intro k read hk n hn
    obtain ⟨j, hj⟩ := h.got k read hk n hn
    exact ⟨j, hg.creator n j hj⟩
  leading := by
    intro k read hk
    exact (h.leading k read hk).mono hg
  registered := by
    intro hr l hl
    exact (h.registered hr l hl).mono hg
  resigning := h.resigning
  adding := h.adding

omit [DecidableEq ι] in
/-- A thread moves. -/
theorem Good.goto {i : ι} {x : Instance} (h : Good uuid s i x) {k : Handler} {p : Pc}
    (hgot : ∀ read, p = .got read → ∀ n ∈ read.getD [], ∃ j, s.creator n = some j)
    (hlead : ∀ read, p = .leading read → Holds s x read)
    (hres : ∀ read andAdd, k = .child → p = .resigning read andAdd → andAdd = false)
    (hadd : ∀ read, k = .child → p = .adding read → read = none) :
    Good uuid s i (x.goto k p) := by
  have hpc (k' : Handler) (q : Pc) (hq : (x.goto k p).pc k' = q) :
      (k' = k ∧ p = q) ∨ x.pc k' = q := by
    unfold Instance.goto at hq
    by_cases hk : k' = k
    · subst hk
      exact .inl ⟨rfl, by simpa using hq⟩
    · exact .inr (by simpa [hk] using hq)
  refine ⟨h.node, ?_, ?_, h.registered, ?_, ?_⟩
  · intro k' read hq
    rcases hpc k' _ hq with ⟨-, hp⟩ | hq
    · exact hgot read hp
    · exact h.got k' read hq
  · intro k' read hq
    rcases hpc k' _ hq with ⟨-, hp⟩ | hq
    · exact hlead read hp
    · exact h.leading k' read hq
  · intro read andAdd hq
    rcases hpc .child _ hq with ⟨hk, hp⟩ | hq
    · exact hres read andAdd hk.symm hp
    · exact h.resigning read andAdd hq
  · intro read hq
    rcases hpc .child _ hq with ⟨hk, hp⟩ | hq
    · exact hadd read hk.symm hp
    · exact h.adding read hq

omit [DecidableEq ι] in
/-- A run completes. -/
theorem Good.complete {i : ι} {x : Instance} (h : Good uuid s i x) {k : Handler}
    {read : Option (List String)}
    (hlast : x.isregister → ∀ l, read = some l → Holds s x (some l)) :
    Good uuid s i (x.complete k read) := by
  have hidle : Good uuid s i (x.goto k .idle) := by
    refine h.goto ?_ ?_ ?_ ?_ <;> nofun
  exact ⟨hidle.node, hidle.got, hidle.leading, hlast, hidle.resigning, hidle.adding⟩

theorem inv_set (h : Inv uuid s) {i : ι} {x : Instance} (hx : Good uuid s i x) :
    Inv uuid (s.set i x) where
  created := h.created
  valid := h.valid
  good := by
    intro j
    by_cases hj : j = i
    · subst hj
      have hself : (s.set j x).inst j = x := by simp [set]
      rw [hself]
      exact hx.mono ⟨fun _ _ => id, fun _ _ _ => id⟩
    · have hne : (s.set i x).inst j = s.inst j := by simp [set, hj]
      rw [hne]
      exact (h.good j).mono ⟨fun _ _ => id, fun _ _ _ => id⟩

omit [DecidableEq ι] in
theorem inv_expire (h : Inv uuid s) (name : String) :
    Inv uuid { s with children := s.children.filter (·.name ≠ name) } := by
  have hsub : ∀ n ∈ (s.children.filter (·.name ≠ name)).map Znode.name, n ∈ s.names := by
    intro n hn
    obtain ⟨c, hc, rfl⟩ := List.mem_map.mp hn
    exact List.mem_map_of_mem (List.mem_of_mem_filter hc)
  refine ⟨fun n hn => h.created n (hsub n hn), h.valid, fun i => ?_⟩
  exact (h.good i).mono ⟨fun _ _ => id, fun n _ _ hgone hn => hgone (hsub n hn)⟩

/-! ## Runs of `create_node` -/

omit [DecidableEq ι] in
/-- Once its node is gone, an instance may remember another name of its own. -/
theorem Good.rename {i : ι} {x : Instance} (h : Good uuid s i x) {node : String}
    (hnode : node = x.electionNode ∨ x.electionNode ∉ s.names ∧
      (node = uuid i ∨ s.creator node = some i)) :
    Good uuid s i { x with electionNode := node } := by
  rcases hnode with rfl | ⟨hgone, hown⟩
  · exact h
  · have hholds {read : Option (List String)} (hr : Holds s x read) :
        Holds s { x with electionNode := node } read := by
      obtain ⟨m, hm, hle, hj, hnode⟩ := hr
      refine ⟨m, hm, hle, hj, .inr ?_⟩
      rcases hnode with rfl | hnot
      · exact hgone
      · exact hnot
    exact ⟨.inr hown, h.got, fun k read hk => hholds (h.leading k read hk),
      fun hr l hl => hholds (h.registered hr l hl), h.resigning, h.adding⟩

/-- A name that `create_node` adds was never used. -/
theorem names_runCreate {i : ι} {a : Answers} {f : Instance → Instance}
    (hfresh : ∀ name, a.create.name? = some name →
      s.creator name = none ∧ name ≠ "" ∧ ∀ j, name ≠ uuid j) {n : String}
    (hn : n ∈ (s.runCreate uuid i a f).names) :
    n ∈ s.names ∨ s.creator n = none ∧ n ≠ "" ∧ ∀ j, n ≠ uuid j := by
  have hchildren := (createNode_cases (s.inst i).electionNode (uuid i) s.children a).1
  simp only [names, runCreate] at hn
  rcases hchildren with heq | ⟨name, hname, heq⟩
  · rw [heq] at hn
    exact .inl hn
  · rw [heq, List.map_append, List.mem_append] at hn
    rcases hn with hn | hn
    · exact .inl hn
    · obtain rfl : n = name := by simpa using hn
      exact .inr (hfresh n hname)

theorem grows_runCreate {i : ι} {a : Answers} {f : Instance → Instance}
    (hfresh : ∀ name, a.create.name? = some name →
      s.creator name = none ∧ name ≠ "" ∧ ∀ j, name ≠ uuid j) :
    Grows s (s.runCreate uuid i a f) where
  creator := by
    intro n j hj
    have hnot : ¬ (n ∈ (s.runCreate uuid i a f).names ∧ n ∉ s.names) := by
      rintro ⟨hn, hold⟩
      rcases names_runCreate hfresh hn with hn | ⟨hnone, -⟩
      · exact hold hn
      · rw [hj] at hnone
        cases hnone
    exact (if_neg hnot).trans hj
  gone := by
    intro n j hj hgone hn
    rcases names_runCreate hfresh hn with hn | ⟨hnone, -⟩
    · exact hgone hn
    · rw [hj] at hnone
      cases hnone

theorem creator_runCreate {i : ι} {a : Answers} {f : Instance → Instance} {n : String}
    (hn : n ∈ (s.runCreate uuid i a f).names) (hold : n ∉ s.names) :
    (s.runCreate uuid i a f).creator n = some i :=
  if_pos ⟨hn, hold⟩

/-- What `create_node` makes of the instance that runs it. -/
theorem good_runCreate (h : Inv uuid s) {i : ι} {a : Answers} {f : Instance → Instance}
    (hfresh : ∀ name, a.create.name? = some name →
      s.creator name = none ∧ name ≠ "" ∧ ∀ j, name ≠ uuid j)
    (hexists : (s.inst i).electionNode ∈ s.names → a.existsNode) :
    Good uuid (s.runCreate uuid i a f) i
      { s.inst i with electionNode :=
          (createNode (s.inst i).electionNode (uuid i) s.children a).electionNode } := by
  apply ((h.good i).mono (grows_runCreate hfresh)).rename
  obtain hsame | ⟨hnot, hnew⟩ :=
    (createNode_cases (s.inst i).electionNode (uuid i) s.children a).2
  · exact .inl hsame
  · -- the remembered node was not found, so it is not there
    have hgone : (s.inst i).electionNode ∉ s.names := by
      intro hin
      obtain ⟨j, hj⟩ := h.created _ hin
      exact hnot ⟨(h.valid _ j hj).1, hexists hin, hin⟩
    refine .inr ⟨?_, ?_⟩
    · intro hin
      rcases names_runCreate hfresh hin with hin | ⟨hnone, hempty, huuid⟩
      · exact hgone hin
      · rcases (h.good i).node with hn | hn | hn
        · exact hempty hn
        · exact huuid i hn
        · rw [hn] at hnone
          cases hnone
    · rcases hnew with hu | ⟨name, hname, hnode, hchildren⟩
      · exact .inl hu
      · rw [hnode]
        refine .inr (creator_runCreate ?_ ?_)
        · simp only [names, runCreate]
          rw [hchildren]
          simp
        · intro hin
          obtain ⟨j, hj⟩ := h.created _ hin
          rw [(hfresh name hname).1] at hj
          cases hj

theorem inv_runCreate (h : Inv uuid s) {i : ι} {a : Answers} {f : Instance → Instance}
    (hfresh : ∀ name, a.create.name? = some name →
      s.creator name = none ∧ name ≠ "" ∧ ∀ j, name ≠ uuid j)
    (hexists : (s.inst i).electionNode ∈ s.names → a.existsNode)
    (hf : ∀ x, x.isregister = (s.inst i).isregister →
      Good uuid (s.runCreate uuid i a f) i x → Good uuid (s.runCreate uuid i a f) i (f x)) :
    Inv uuid (s.runCreate uuid i a f) where
  created := by
    intro n hn
    by_cases hold : n ∈ s.names
    · obtain ⟨j, hj⟩ := h.created n hold
      exact ⟨j, (grows_runCreate hfresh).creator n j hj⟩
    · exact ⟨i, creator_runCreate hn hold⟩
  valid := by
    intro n j hj
    by_cases hnew : n ∈ (s.runCreate uuid i a f).names ∧ n ∉ s.names
    · rcases names_runCreate hfresh hnew.1 with hold | ⟨-, hvalid⟩
      · exact absurd hold hnew.2
      · exact hvalid
    · exact h.valid n j ((if_neg hnew).symm.trans hj)
  good := by
    intro j
    by_cases hj : j = i
    · subst hj
      have hself : (s.runCreate uuid j a f).inst j = f { s.inst j with electionNode :=
          (createNode (s.inst j).electionNode (uuid j) s.children a).electionNode } := by
        simp [runCreate]
      rw [hself]
      exact hf _ rfl (good_runCreate h hfresh hexists)
    · have hne : (s.runCreate uuid i a f).inst j = s.inst j := by simp [runCreate, hj]
      rw [hne]
      exact (h.good j).mono (grows_runCreate hfresh)

/-! ## Steps of the handlers -/

theorem inv_read (h : Inv uuid s) {k : Handler} {i : ι} {strings : Option (List String)}
    (ha : s.next uuid (.read k i strings) = some s') : Inv uuid s' := by
  simp only [next, Option.ite_none_right_eq_some] at ha
  obtain ⟨-, ha⟩ := ha
  split at ha
  · rename_i l
    simp only [Option.ite_none_right_eq_some, Option.some.injEq] at ha
    obtain ⟨hperm, rfl⟩ := ha
    apply inv_set h
    refine (h.good i).goto ?_ nofun nofun nofun
    intro read hread n hn
    cases hread
    exact h.created n (hperm.mem_iff.mp hn)
  · split at ha
    · cases ha
      apply inv_set h
      refine (h.good i).goto ?_ nofun nofun nofun
      intro read hread n hn
      cases hread
      cases hn
    · cases ha
      apply inv_set h
      apply (h.good i).complete
      nofun

/-- An index of 0 starts a registration on the list that was read. -/
theorem inv_decide (h : Inv uuid s) {k : Handler} {i : ι} (hok : Sound s (.decide k i))
    (ha : s.next uuid (.decide k i) = some s') : Inv uuid s' := by
  simp only [next, Option.ite_none_right_eq_some] at ha
  obtain ⟨-, ha⟩ := ha
  split at ha
  · rename_i read hgot
    cases ha
    apply inv_set h
    refine (h.good i).goto ?_ ?_ ?_ ?_
    · intro read' hp
      exact absurd hp branch_ne_got
    · intro read' hp
      obtain ⟨hzero, rfl⟩ := branch_leading hp
      obtain ⟨hmem, hle⟩ := nodeIndexof_eq_zero hzero
      exact ⟨_, hmem, hle, (h.good i).got k read hgot _ hmem, .inl rfl⟩
    · intro read' andAdd hk hp
      subst hk
      exact branch_child_resigning hp
    · intro read' hk hp
      subst hk
      obtain ⟨hneg, hreg, rfl⟩ := branch_child_adding hp
      cases read with
      | none => rfl
      | some l => exact absurd (hok l hgot hreg) (nodeIndexof_eq_neg_one.mp hneg)
  · cases ha

theorem inv_register (h : Inv uuid s) {k : Handler} {i : ι}
    (ha : s.next uuid (.register k i) = some s') : Inv uuid s' := by
  simp only [next, Option.ite_none_right_eq_some] at ha
  obtain ⟨-, ha⟩ := ha
  split at ha
  · rename_i read hlead
    cases ha
    apply inv_set h
    have hholds := (h.good i).leading k read hlead
    have hdone : Good uuid s i ((s.inst i).complete k read) := by
      apply (h.good i).complete
      intro _ l hl
      rwa [hl] at hholds
    refine ⟨hdone.node, hdone.got, hdone.leading, ?_, hdone.resigning, hdone.adding⟩
    intro _ l hl
    cases hl
    exact hholds
  · cases ha

theorem inv_unregister (h : Inv uuid s) {k : Handler} {i : ι}
    (ha : s.next uuid (.unregister k i) = some s') : Inv uuid s' := by
  simp only [next, Option.ite_none_right_eq_some] at ha
  obtain ⟨-, ha⟩ := ha
  split at ha
  · rename_i read andAdd hres
    cases ha
    apply inv_set h
    have hi := h.good i
    unfold Instance.resign
    split
    · exact ⟨hi.node, hi.got, hi.leading, nofun, hi.resigning, hi.adding⟩
    · rename_i hreg
      split
      · refine hi.goto nofun nofun nofun ?_
        intro read' hk hp
        subst hk
        rename_i hadd
        rw [hi.resigning read andAdd hres] at hadd
        cases hadd
      · apply hi.complete
        intro hreg'
        exact absurd hreg' hreg
  · cases ha

theorem inv_add (h : Inv uuid s) {k : Handler} {i : ι} {a : Answers}
    (hfresh : Fresh uuid s (.add k i a)) (hok : Sound s (.add k i a))
    (ha : s.next uuid (.add k i a) = some s') : Inv uuid s' := by
  simp only [next, Option.ite_none_right_eq_some] at ha
  obtain ⟨-, ha⟩ := ha
  split at ha
  · rename_i read hadd
    cases ha
    have hexists : (s.inst i).electionNode ∈ s.names → a.existsNode := by
      cases k with
      | child => exact hok
      | test => exact hok.2
    apply inv_runCreate h (fun name hname => hfresh name hname) hexists
    intro x hx hgood
    apply hgood.complete
    intro hreg l hl
    cases k with
    | child =>
      rw [(h.good i).adding read hadd] at hl
      cases hl
    | test =>
      rw [hx] at hreg
      exact absurd hreg hok.1
  · cases ha

theorem inv_step (h : Inv uuid s) (hok : Sound s act) (ha : (lts uuid).step s act s') :
    Inv uuid s' := by
  obtain ⟨hfresh, ha⟩ := ha
  cases act with
  | join i =>
    simp only [next, Option.ite_none_right_eq_some, Option.some.injEq] at ha
    obtain ⟨-, rfl⟩ := ha
    apply inv_set h
    refine ⟨.inl rfl, ?_, ?_, ?_, ?_, ?_⟩ <;> nofun
  | expire name =>
    simp only [next, Option.some.injEq] at ha
    subst ha
    exact inv_expire h name
  | create i a =>
    simp only [next, Option.ite_none_right_eq_some, Option.some.injEq] at ha
    obtain ⟨-, rfl⟩ := ha
    exact inv_runCreate h (fun name hname => hfresh name hname) hok (fun x _ hx => hx)
  | read k i strings => exact inv_read h ha
  | decide k i => exact inv_decide h hok ha
  | register k i => exact inv_register h ha
  | unregister k i => exact inv_unregister h ha
  | add k i a => exact inv_add h hfresh hok ha

theorem inv_init (h : (lts uuid).init s) : Inv uuid s where
  created := by
    intro n hn
    simp [names, h.1] at hn
  valid := by
    intro n i hi
    rw [h.2.2 n] at hi
    cases hi
  good := by
    intro i
    rw [h.2.1 i]
    refine ⟨.inl rfl, ?_, ?_, ?_, ?_, ?_⟩ <;> nofun

theorem inv_reach (h : ((lts uuid).restrict Sound).Reach s) : Inv uuid s := by
  induction h with
  | init h => exact inv_init h
  | step _ ha ih => exact inv_step ih ha.1 ha.2

/-! ## Agreement -/

omit [DecidableEq ι] in
/-- In a settled state a registration rests on the current list. -/
theorem least_of_settled (h : Inv uuid s) (hset : Settled s) {i : ι}
    (hlive : (s.inst i).phase = .live) (hreg : (s.inst i).isregister) :
    (s.inst i).electionNode ∈ s.names ∧ ∀ n ∈ s.names, (s.inst i).electionNode ≤ n := by
  obtain ⟨-, l, hl, hperm⟩ := hset i hlive
  obtain ⟨m, hm, hle, -, hnode⟩ := (h.good i).registered hreg l hl
  have hmem : m ∈ s.names := hperm.mem_iff.mp hm
  rcases hnode with rfl | hgone
  · exact ⟨hmem, fun n hn => hle n (hperm.mem_iff.mpr hn)⟩
  · exact absurd hmem hgone

omit [DecidableEq ι] in
/-- The instance that remembers a child has created it. -/
theorem creator_of_mem (h : Inv uuid s) {i : ι} (hin : (s.inst i).electionNode ∈ s.names) :
    s.creator (s.inst i).electionNode = some i := by
  obtain ⟨j, hj⟩ := h.created _ hin
  rcases (h.good i).node with hn | hn | hn
  · exact absurd hn (h.valid _ j hj).1
  · exact absurd hn ((h.valid _ j hj).2 i)
  · exact hn

/-- **Leader agreement.** -/
theorem agreement (h : ((lts uuid).restrict Sound).Reach s) (hset : Settled s) : Agreement s := by
  have hinv := inv_reach h
  refine ⟨?_, fun i => least_of_settled hinv hset⟩
  intro i j hi hj hri hrj
  obtain ⟨hmi, hlei⟩ := least_of_settled hinv hset hi hri
  obtain ⟨hmj, hlej⟩ := least_of_settled hinv hset hj hrj
  have heq : (s.inst i).electionNode = (s.inst j).electionNode :=
    le_antisymm (hlei _ hmj) (hlej _ hmi)
  have hci := creator_of_mem hinv hmi
  have hcj := creator_of_mem hinv hmj
  rw [heq, hcj] at hci
  exact (Option.some.inj hci).symm

/-! ## A leader without a node -/

/-- The only instance there is. -/
def sampleUuid : Unit → String := fun _ => "f0x4Kq2mB7ZrT1yUe9Qa"

def sampleStart : Cluster Unit := ⟨[], fun _ => Instance.fresh, fun _ => none⟩

theorem sampleStart_init : (lts sampleUuid).init sampleStart := ⟨rfl, fun _ => rfl, fun _ => rfl⟩

/-- All calls come back. -/
def sampleAnswers (create : CreateAnswer) : Answers := ⟨true, true, true, [], create⟩

/-- The instance joins and `test_event` makes it the leader. -/
def sampleJoin : List (Act Unit) :=
  [.join (), .create () (sampleAnswers (.ok "10000000000")),
   .read .test () (some ["10000000000"]), .decide .test (), .register .test ()]

/-- Its node expires, and `child_event` fails to add another one. -/
def sampleLoss : List (Act Unit) :=
  [.expire "10000000000", .read .child () (some []), .decide .child (),
   .add .child () (sampleAnswers .refused)]

/-- What a state of one instance looks like. -/
def view (s : Cluster Unit) : List String × Phase × Bool × Bool × Option (List String) :=
  (s.names, (s.inst ()).phase, (s.inst ()).isregister,
    (s.inst ()).pc .child = .idle ∧ (s.inst ()).pc .test = .idle, (s.inst ()).last)

theorem settled_of_view {s : Cluster Unit} {p : Phase} {r : Bool} {l : List String}
    (h : view s = (l, p, r, true, some l)) : Settled s := by
  simp only [view, Prod.mk.injEq, decide_eq_true_eq] at h
  obtain ⟨hnames, -, -, ⟨hchild, htest⟩, hlast⟩ := h
  intro i _
  refine ⟨?_, l, hlast, by rw [hnames]⟩
  intro k
  cases k
  · exact hchild
  · exact htest

theorem not_agreement :
    ∃ s, (lts sampleUuid).Reach s ∧ Settled s ∧ ¬ Agreement s := by
  have hrun : ((sampleJoin ++ sampleLoss).foldlM (exec sampleUuid) sampleStart).map view =
      some ([], .live, true, true, some []) := by decide +kernel
  obtain ⟨s, hs, hview⟩ := Option.map_eq_some_iff.mp hrun
  refine ⟨s, (LTS.Reach.init sampleStart_init).exec (fun _ _ _ => exec_sound) hs,
    settled_of_view hview, ?_⟩
  intro h
  simp only [view, Prod.mk.injEq] at hview
  have hleast := (h.least () hview.2.1 hview.2.2.1).1
  rw [hview.1] at hleast
  cases hleast

theorem agreement_sample :
    ∃ s, ((lts sampleUuid).restrict Sound).Reach s ∧ Settled s ∧ (s.inst ()).isregister ∧
      Agreement s := by
  have hrun : (sampleJoin.foldlM (exec sampleUuid) sampleStart).map view =
      some (["10000000000"], .live, true, true, some ["10000000000"]) := by decide +kernel
  obtain ⟨s, hs, hview⟩ := Option.map_eq_some_iff.mp hrun
  have hok : ∀ act ∈ sampleJoin, ∀ s, Sound s act := by
    intro act hact s
    simp only [sampleJoin, List.mem_cons, List.not_mem_nil, or_false] at hact
    rcases hact with rfl | rfl | rfl | rfl | rfl
    · trivial
    · exact fun _ => rfl
    · trivial
    · trivial
    · trivial
  have hstart : ((lts sampleUuid).restrict Sound).Reach sampleStart := .init sampleStart_init
  have hreach := hstart.exec_restrict (fun _ _ _ => exec_sound) hok hs
  have hset := settled_of_view hview
  simp only [view, Prod.mk.injEq] at hview
  exact ⟨s, hreach, hset, hview.2.2.1, agreement hreach hset⟩

end Cluster

end DevTools.Election
