import Mathlib.Data.List.Nodup

/-!
# The children of a process

What `fork` and `waitpid` do to the table of a process's children, as POSIX has it: a child that
has died stays in the table until it is reaped, and only then its pid can be used again. All
children are in the process group of their parent.
-/

namespace DevTools

/-- A child; a dead one is a zombie. `kind` is what it was forked for. -/
structure Child (κ : Type) where
  pid : Int
  kind : κ
  alive : Bool
  deriving DecidableEq

abbrev Children (κ : Type) := List (Child κ)

namespace Children

variable {κ : Type}

def pids (cs : Children κ) : List Int := cs.map Child.pid

/-- `fork` may return the pid. -/
def Fresh (cs : Children κ) (pid : Int) : Prop := 0 < pid ∧ pid ∉ cs.pids

/-- The child has died, and has not been reaped. -/
def Zombie (cs : Children κ) (pid : Int) : Prop := ∃ c ∈ cs, c.pid = pid ∧ c.alive = false

/-- A child dies. -/
def die (pid : Int) (cs : Children κ) : Children κ :=
  cs.map fun c => if c.pid = pid then { c with alive := false } else c

/-- A child is reaped. -/
def reap (pid : Int) (cs : Children κ) : Children κ := cs.filter fun c => c.pid ≠ pid

/-- `waitpid(target, ..)` is for this child. -/
def Waits (target pid : Int) : Prop := target = -1 ∨ target = 0 ∨ target = pid

/-- Pids are positive, and no two children have the same. -/
structure Valid (cs : Children κ) : Prop where
  pos : ∀ c ∈ cs, 0 < c.pid
  nodup : cs.pids.Nodup

instance (cs : Children κ) (pid : Int) : Decidable (cs.Fresh pid) :=
  inferInstanceAs (Decidable (_ ∧ _))

instance (cs : Children κ) (pid : Int) : Decidable (cs.Zombie pid) :=
  inferInstanceAs (Decidable (∃ c ∈ cs, _))

variable {cs : Children κ} {c : Child κ} {pid : Int} {kind : κ}

theorem mem_reap : c ∈ cs.reap pid ↔ c ∈ cs ∧ c.pid ≠ pid := by
  simp [reap, List.mem_filter]

theorem mem_pids_of_mem (hc : c ∈ cs) : c.pid ∈ cs.pids := List.mem_map_of_mem hc

/-- Dying changes nothing but `alive`. -/
theorem mem_die (hc : c ∈ cs.die pid) : ∃ c' ∈ cs, c'.pid = c.pid ∧ c'.kind = c.kind := by
  obtain ⟨c', hc', rfl⟩ := List.mem_map.mp hc
  refine ⟨c', hc', ?_⟩
  split_ifs
  · exact ⟨rfl, rfl⟩
  · exact ⟨rfl, rfl⟩

theorem exists_mem_die (hc : c ∈ cs) : ∃ c' ∈ cs.die pid, c'.pid = c.pid ∧ c'.kind = c.kind := by
  refine ⟨_, List.mem_map_of_mem hc, ?_⟩
  split_ifs
  · exact ⟨rfl, rfl⟩
  · exact ⟨rfl, rfl⟩

theorem pids_die : (cs.die pid).pids = cs.pids := by
  rw [pids, die, List.map_map]
  refine List.map_congr_left fun c _ => ?_
  show (if c.pid = pid then { c with alive := false } else c).pid = c.pid
  split_ifs
  · rfl
  · rfl

theorem Valid.ne_zero (h : cs.Valid) (hc : c ∈ cs) : c.pid ≠ 0 := by
  have hpos := h.pos c hc
  omega

theorem Valid.die (h : cs.Valid) : (cs.die pid).Valid where
  pos c hc := by
    obtain ⟨c', hc', hpid, -⟩ := mem_die hc
    rw [← hpid]
    exact h.pos c' hc'
  nodup := by
    rw [pids_die]
    exact h.nodup

theorem Valid.reap (h : cs.Valid) : (cs.reap pid).Valid where
  pos c hc := h.pos c (mem_reap.mp hc).1
  nodup := h.nodup.sublist (List.filter_sublist.map _)

theorem Valid.fork (h : cs.Valid) (hfresh : cs.Fresh pid) :
    Valid (⟨pid, kind, true⟩ :: cs) where
  pos := by
    intro c hc
    rcases List.mem_cons.mp hc with rfl | hc
    · exact hfresh.1
    · exact h.pos c hc
  nodup := List.nodup_cons.mpr ⟨hfresh.2, h.nodup⟩

/-- A child is known by its pid. -/
theorem Valid.eq_of_pid (h : cs.Valid) {c' : Child κ} (hc : c ∈ cs) (hc' : c' ∈ cs)
    (hpid : c.pid = c'.pid) : c = c' :=
  List.inj_on_of_nodup_map h.nodup hc hc' hpid

end Children

end DevTools
