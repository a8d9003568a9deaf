import DevTools.Daemon.HashMapRefinement

/-!
# The representation invariant of the hash map

Any calls of `hashmap_put`, `hashmap_get` and `hashmap_remove` are made, each with memory that may
run out anywhere.

**Theorem (`representation`).** The size is the number of used slots and at most half of the
table, the table has `256 * 2 ^ k` slots, and every used slot is at most seven after the index of
its key, where `hashmap_get` finds it.

This holds after a `hashmap_put` with any status: a key may then be in two slots, or be lost, but
no slot is ever where it should not be.

**Theorem (`hashmapRehash_keeps_all`).** From a table like that in which no key is in two slots,
`_hashmap_rehash` keeps every key with its value, or the last doubling was refused.
-/

namespace DevTools.Daemon

/-! ## Windows and distances -/

theorem mem_probes_iff {table_size n curr i : Nat} (hcurr : curr < table_size) :
    i ∈ probes table_size n curr ↔ ∃ j < n, i = (curr + j) % table_size := by
  induction n generalizing curr with
  | zero => simp [probes]
  | succ n ih =>
    have hpos : 0 < table_size := Nat.zero_lt_of_lt hcurr
    rw [probes, List.mem_cons, ih (Nat.mod_lt _ hpos)]
    constructor
    · intro hi
      rcases hi with rfl | ⟨j, hj, rfl⟩
      · exact ⟨0, n.succ_pos, by simp [Nat.mod_eq_of_lt hcurr]⟩
      · refine ⟨j + 1, Nat.succ_lt_succ hj, ?_⟩
        rw [Nat.mod_add_mod, Nat.add_assoc, Nat.add_comm 1 j]
    · intro hi
      obtain ⟨j, hj, rfl⟩ := hi
      cases j with
      | zero => exact .inl (by simp [Nat.mod_eq_of_lt hcurr])
      | succ j =>
        refine .inr ⟨j, Nat.lt_of_succ_lt_succ hj, ?_⟩
        rw [Nat.mod_add_mod, Nat.add_assoc, Nat.add_comm 1 j]

/-- The slots of a window are at most seven after the index. -/
theorem mem_window_iff {table_size i : Nat} {key : CStr} (hpos : 0 < table_size) :
    i ∈ window table_size key ↔ ∃ j ≤ 7, i = (findHashIndex table_size key + j) % table_size := by
  have hindex : findHashIndex table_size key < table_size := Nat.mod_lt _ hpos
  rw [window, mem_probes_iff hindex]
  simp only [HMAP_CHAIN_LENGTH, Nat.lt_succ_iff]

namespace HashMap

variable {β : Type} {m m' : HashMap β} {f : Contents β} {key : CStr} {value v : β} {st : Status}
  {calloc : Nat → Bool} {fuel index : Nat}
  {put : HashMap β → CStr → β → Option (Status × HashMap β)}

/-! ## What every insertion keeps -/

theorem rehashLoop_keeps {P : HashMap β → Prop} {Q : CStr → Prop}
    (hput : ∀ m key value st m', Q key → P m → put m key value = some (st, m') → P m')
    {old : Slots CStr β} (hold : ∀ i key value, old i = some (key, value) → Q key)
    {is : List Nat} (hm : P m) (hloop : rehashLoop put old is m = some (st, m')) : P m' := by
  induction is generalizing m with
  | nil =>
    cases hloop
    exact hm
  | cons i is ih =>
    cases hslot : old i with
    | none =>
      simp only [rehashLoop, hslot] at hloop
      exact ih hm hloop
    | some e =>
      simp only [rehashLoop, hslot] at hloop
      cases hres : put m e.1 e.2 with
      | none =>
        rw [hres] at hloop
        cases hloop
      | some res =>
        obtain ⟨st₁, m₁⟩ := res
        have hm₁ := hput m e.1 e.2 st₁ m₁ (hold i e.1 e.2 hslot) hm hres
        rw [hres] at hloop
        cases st₁ with
        | HMAP_S_OK => exact ih hm₁ hloop
        | HMAP_E_KEYUSED | HMAP_E_OUTMEM | HMAP_E_NOTFOUND =>
          cases hloop
          exact hm₁

/-- The memory for a table of that many slots is there. -/
def Granted (calloc : Nat → Bool) (n : Nat) : Prop := n < 2 ^ 31 ∧ calloc n

instance (calloc : Nat → Bool) (n : Nat) : Decidable (Granted calloc n) :=
  inferInstanceAs (Decidable (_ ∧ _))

/-- One rehashing: the table is doubled and filled again, or it stays. -/
theorem hashmapRehash_cases (hre : hashmapRehash calloc put m = some (st, m')) :
    (Granted calloc (2 * m.table_size) ∧
      rehashLoop put m.elems (List.range m.table_size) ⟨2 * m.table_size, 0, fun _ => none⟩ =
        some (st, m')) ∨
      (¬ Granted calloc (2 * m.table_size) ∧ st = .HMAP_E_OUTMEM ∧ m' = m) := by
  unfold hashmapRehash at hre
  split_ifs at hre with hsize
  · exact .inl ⟨hsize, hre⟩
  · cases hre
    exact .inr ⟨hsize, rfl, rfl⟩

/-- What a store of the keys in question and an empty doubled table keep, `hashmap_put` keeps,
whatever it returns. -/
theorem hashmapPut_keeps {P : HashMap β → Prop} {Q : CStr → Prop}
    (hkeys : ∀ m, P m → ∀ i key value, m.elems i = some (key, value) → Q key)
    (hstore : ∀ m key value index, Q key → P m → m.hashmapHash key = some index →
      P (m.store index key value).2)
    (hdouble : ∀ m, P m → Granted calloc (2 * m.table_size) →
      P ⟨2 * m.table_size, 0, fun _ => none⟩)
    (hkey : Q key) (hm : P m) (hres : hashmapPut calloc fuel m key value = some (st, m')) :
    P m' := by
  induction fuel generalizing m key value st m' with
  | zero =>
    obtain ⟨index, hindex, hstored⟩ := Option.map_eq_some_iff.mp hres
    have h := hstore m key value index hkey hm hindex
    rwa [hstored] at h
  | succ fuel ih =>
    have hrehash : ∀ st₁ m₁, hashmapRehash calloc (hashmapPut calloc fuel) m = some (st₁, m₁) →
        P m₁ := by
      intro st₁ m₁ hre
      rcases hashmapRehash_cases hre with ⟨hsize, hloop⟩ | ⟨-, -, rfl⟩
      · refine rehashLoop_keeps ?_ (hkeys m hm) (hdouble m hm hsize) hloop
        intro m key value st m' hkey hm hres
        exact ih hkey hm hres
      · exact hm
    rcases hashmapPut_inv hres with
      ⟨index, hindex, hstored⟩ | ⟨-, ⟨-, hre⟩ | ⟨st₁, m₁, hre, -, hres⟩⟩
    · have h := hstore m key value index hkey hm hindex
      rwa [hstored] at h
    · exact hrehash _ _ hre
    · exact ih hkey (hrehash _ _ hre) hres

/-! ## The invariant -/

/-- The used slots. -/
def used (m : HashMap β) : Finset Nat :=
  (Finset.range m.table_size).filter fun i => (m.elems i).isSome

/-- Every used slot is in the window of its key, and they are counted. -/
structure Placed (m : HashMap β) : Prop where
  pos : 0 < m.table_size
  inWindow : ∀ i key value, m.elems i = some (key, value) → i ∈ window m.table_size key
  size : m.size = m.used.card

/-- No key is in two slots. -/
def Distinct (m : HashMap β) : Prop :=
  ∀ i j key v v', m.elems i = some (key, v) → m.elems j = some (key, v') → i = j

/-- The representation invariant. -/
structure Sound (m : HashMap β) : Prop extends Placed m where
  half : m.size ≤ (m.table_size / 2 : Nat)
  doubled : ∃ k, m.table_size = HMAP_INITIAL_SIZE * 2 ^ k

theorem placed_empty {n : Nat} (hpos : 0 < n) : Placed (⟨n, 0, fun _ => none⟩ : HashMap β) :=
  ⟨hpos, by simp, by simp [used]⟩

theorem sound_empty {n : Nat} (hn : ∃ k, n = HMAP_INITIAL_SIZE * 2 ^ k) :
    Sound (⟨n, 0, fun _ => none⟩ : HashMap β) := by
  obtain ⟨k, rfl⟩ := hn
  have hpos : 0 < HMAP_INITIAL_SIZE * 2 ^ k := Nat.mul_pos (by decide) k.two_pow_pos
  exact ⟨placed_empty hpos, Int.natCast_nonneg _, k, rfl⟩

theorem Placed.lt (hm : m.Placed) {i : Nat} {key : CStr} {value : β}
    (hslot : m.elems i = some (key, value)) : i < m.table_size :=
  lt_of_mem_window hm.pos (hm.inWindow i key value hslot)

/-- A blank slot of a window is used, and the size goes up. -/
theorem Placed.fill (value : β) (hm : m.Placed) (hblank : m.elems index = none)
    (hmem : index ∈ window m.table_size key) :
    Placed ⟨m.table_size, m.size + 1, Function.update m.elems index (some (key, value))⟩ := by
  have hlt := lt_of_mem_window hm.pos hmem
  refine ⟨hm.pos, ?_, ?_⟩
  · intro i k v hslot
    rcases update_eq_some.mp hslot with ⟨rfl, hnew⟩ | ⟨-, hold⟩
    · cases hnew
      exact hmem
    · exact hm.inWindow i k v hold
  · have hused : used ⟨m.table_size, m.size + 1,
        Function.update m.elems index (some (key, value))⟩ = insert index m.used := by
      ext i
      by_cases hi : i = index
      · subst hi
        simp [used, hlt]
      · simp [used, hi]
    have hnot : index ∉ m.used := by simp [used, hblank]
    rw [hused, Finset.card_insert_of_notMem hnot, hm.size]
    rfl

/-- A used slot is blanked, and the size goes down. -/
theorem Placed.blank (hm : m.Placed) (hslot : m.elems index = some (key, value)) :
    Placed ⟨m.table_size, m.size - 1, Function.update m.elems index none⟩ := by
  refine ⟨hm.pos, ?_, ?_⟩
  · intro i k v hold
    rcases update_eq_some.mp hold with ⟨-, hnew⟩ | ⟨-, hold⟩
    · cases hnew
    · exact hm.inWindow i k v hold
  · have hused : used ⟨m.table_size, m.size - 1, Function.update m.elems index none⟩ =
        m.used.erase index := by
      ext i
      by_cases hi : i = index
      · subst hi
        simp [used]
      · simp [used, hi]
    have hmem : index ∈ m.used := by simp [used, hm.lt hslot, hslot]
    have hcard := Finset.card_erase_add_one hmem
    rw [hused]
    have hsize := hm.size
    simp only
    omega

theorem Sound.store (hm : m.Sound) (hindex : m.hashmapHash key = some index) :
    (m.store index key value).2.Sound := by
  obtain ⟨hfull, hfind⟩ := hashmapHash_eq_some hindex
  unfold HashMap.store
  cases hslot : m.elems index with
  | some e => exact hm
  | none =>
    refine ⟨hm.fill value hslot (List.mem_of_find?_eq_some hfind), ?_, hm.doubled⟩
    simp only [halfFull, not_le] at hfull
    exact hfull

theorem Sound.double (hm : m.Sound) : Sound (⟨2 * m.table_size, 0, fun _ => none⟩ : HashMap β) := by
  obtain ⟨k, hk⟩ := hm.doubled
  exact sound_empty ⟨k + 1, by rw [hk, pow_succ', Nat.mul_left_comm]⟩

theorem Sound.hashmapPut (hm : m.Sound)
    (hres : m.hashmapPut calloc fuel key value = some (st, m')) : m'.Sound := by
  refine hashmapPut_keeps (Q := fun _ => True) ?_ ?_ ?_ trivial hm hres
  · intro _ _ _ _ _ _
    trivial
  · intro m key value index _ hm hindex
    exact hm.store hindex
  · intro m hm _
    exact hm.double

theorem Sound.hashmapRemove (hm : m.Sound) : (m.hashmapRemove key).2.Sound := by
  unfold HashMap.hashmapRemove
  cases hfind : (window m.table_size key).find? (m.elems.holds key) with
  | none => exact hm
  | some curr =>
    obtain ⟨v, hslot⟩ := Slots.holds_iff.mp (List.find?_some hfind)
    refine ⟨hm.blank hslot, ?_, hm.doubled⟩
    have hhalf := hm.half
    simp only
    omega

/-- A stored key is found. -/
theorem Placed.get (hm : m.Placed) {i : Nat} (hslot : m.elems i = some (key, value)) :
    ∃ j v, m.elems j = some (key, v) ∧ m.hashmapGet key = (.HMAP_S_OK, some v) := by
  have hsome : ((window m.table_size key).find? (m.elems.holds key)).isSome := by
    rw [List.find?_isSome]
    exact ⟨i, hm.inWindow i key value hslot, Slots.holds_iff.mpr ⟨value, hslot⟩⟩
  obtain ⟨j, hj⟩ := Option.isSome_iff_exists.mp hsome
  obtain ⟨v, hv⟩ := Slots.holds_iff.mp (List.find?_some hj)
  exact ⟨j, v, hv, by simp [hashmapGet, hj, hv]⟩

/-! ## Any calls -/

/-- The calls of a program. Each label has the memory that there is during the call. -/
def history : LTS (HashMap β) ((Nat → Bool) × Call β) where
  init m := m = hashmapCreate
  step m a m' := match a.2 with
    | .put key value => ∃ fuel st, m.hashmapPut a.1 fuel key value = some (st, m')
    | .remove key => m' = (m.hashmapRemove key).2
    | .get _ | .size => m' = m

theorem Sound.step {a : (Nat → Bool) × Call β} (hm : m.Sound) (hstep : history.step m a m') :
    m'.Sound := by
  obtain ⟨calloc, call⟩ := a
  cases call with
  | put key value =>
    obtain ⟨fuel, st, hres⟩ := hstep
    exact hm.hashmapPut hres
  | remove key =>
    obtain rfl : m' = (m.hashmapRemove key).2 := hstep
    exact hm.hashmapRemove
  | get | size =>
    obtain rfl : m' = m := hstep
    exact hm

theorem sound_reach (h : history.Reach m) : m.Sound := by
  refine LTS.Reach.invariant (T := history) (I := Sound) ?_ ?_ h
  · intro m hm
    obtain rfl : m = hashmapCreate := hm
    exact sound_empty ⟨0, rfl⟩
  · intro m a m' hm hstep
    exact hm.step hstep

/-- Each entry is put if there is a slot for it. -/
def fill : HashMap β → List (CStr × β) → HashMap β
  | m, [] => m
  | m, e :: entries => match m.hashmapHash e.1 with
    | some index => fill (m.store index e.1 e.2).2 entries
    | none => fill m entries

theorem fill_reach {entries : List (CStr × β)} (h : history.Reach m) :
    history.Reach (m.fill entries) := by
  induction entries generalizing m with
  | nil => exact h
  | cons e entries ih =>
    rw [fill]
    cases hindex : m.hashmapHash e.1 with
    | none => exact ih h
    | some index =>
      refine ih (h.step (a := (fun _ => false, .put e.1 e.2)) ⟨0, (m.store index e.1 e.2).1, ?_⟩)
      rw [hashmapPut, hindex]
      rfl

/-- **The representation invariant holds after any calls.** -/
theorem representation (h : history.Reach m) :
    m.size = m.used.card ∧ m.size ≤ (m.table_size / 2 : Nat) ∧
      (∃ k, m.table_size = 256 * 2 ^ k) ∧
      ∀ i key value, m.elems i = some (key, value) →
        (∃ j ≤ 7, i = (findHashIndex m.table_size key + j) % m.table_size) ∧
          ∃ v, m.hashmapGet key = (.HMAP_S_OK, some v) := by
  have hm := sound_reach h
  refine ⟨hm.size, hm.half, hm.doubled, ?_⟩
  intro i key value hslot
  obtain ⟨_, v, -, hget⟩ := hm.get hslot
  exact ⟨(mem_window_iff hm.pos).mp (hm.inWindow i key value hslot), v, hget⟩

/-- Two keys with the same index. -/
def sampleTwo : HashMap Nat :=
  hashmapCreate.fill [(Session.sampleKeys.1, 1), (Session.sampleKeys.2, 2)]

/-- The second key is one slot after its index. -/
theorem representation_sampleTwo :
    sampleTwo.elems 103 = some (Session.sampleKeys.2, 2) ∧
      ∃ j ≤ 7, 103 = (findHashIndex sampleTwo.table_size Session.sampleKeys.2 + j) %
        sampleTwo.table_size := by
  have hslot : sampleTwo.elems 103 = some (Session.sampleKeys.2, 2) := by decide +kernel
  exact ⟨hslot, ((representation (fill_reach (.init rfl))).2.2.2 _ _ _ hslot).1⟩

/-! ## Growing -/

/-- The slots before `n`. -/
def cut (m : HashMap β) (n : Nat) : HashMap β :=
  ⟨m.table_size, ((Finset.range n).filter fun i => (m.elems i).isSome).card,
    fun i => if i < n then m.elems i else none⟩

theorem cut_elems_of_ne {n i : Nat} (hi : i ≠ n) :
    (m.cut (n + 1)).elems i = (m.cut n).elems i := by
  have hiff : i < n + 1 ↔ i < n := by omega
  simp only [cut, hiff]

theorem holds_cut (hm : m.Placed) (hd : m.Distinct) (n : Nat) : ∃ f, (m.cut n).Holds f := by
  induction n with
  | zero => exact ⟨∅, holds_empty hm.pos⟩
  | succ n ih =>
    obtain ⟨f, hf⟩ := ih
    cases hslot : m.elems n with
    | none =>
      have hsame : m.cut (n + 1) = m.cut n := by
        have helems : (m.cut (n + 1)).elems = (m.cut n).elems := by
          funext i
          by_cases hi : i = n
          · simp [cut, hi, hslot]
          · exact cut_elems_of_ne hi
        have hcount : (m.cut (n + 1)).size = (m.cut n).size := by
          simp [cut, Finset.range_add_one, Finset.filter_insert, hslot]
        show HashMap.mk m.table_size (m.cut (n + 1)).size (m.cut (n + 1)).elems = _
        rw [helems, hcount]
        rfl
      exact ⟨f, hsame ▸ hf⟩
    | some e =>
      obtain ⟨key, value⟩ := e
      -- the key is in no slot before this one
      have hkey : f.lookup key = none := by
        rw [Option.eq_none_iff_forall_not_mem]
        intro v hv
        obtain ⟨i, hi⟩ := (hf.slots.lookup key v).mp hv
        simp only [cut, Option.ite_none_right_eq_some] at hi
        exact absurd (hd i n key v value hi.2 hslot) hi.1.ne
      refine ⟨f.insert key value, hm.pos, ?_, ?_⟩
      · have hins := hf.slots.insert (v := value) hkey (i := n) (by simp [cut])
          (hm.inWindow n key value hslot)
        have helems : Function.update (m.cut n).elems n (some (key, value)) =
            (m.cut (n + 1)).elems := by
          funext i
          by_cases hi : i = n
          · simp [hi, cut, hslot]
          · rw [Function.update_of_ne hi, cut_elems_of_ne hi]
        rwa [helems] at hins
      · have hsize := hf.size
        rw [card_keys_insert hkey]
        simp only [cut] at hsize
        simp [cut, Finset.range_add_one, Finset.filter_insert, hslot, hsize]

theorem exists_holds (hm : m.Placed) (hd : m.Distinct) : ∃ f, m.Holds f := by
  obtain ⟨f, hf⟩ := holds_cut hm hd m.table_size
  have hsame : m.cut m.table_size = m := by
    have helems : ∀ i, (if i < m.table_size then m.elems i else none) = m.elems i := by
      intro i
      by_cases hi : i < m.table_size
      · rw [if_pos hi]
      · rw [if_neg hi, eq_comm, Option.eq_none_iff_forall_not_mem]
        intro e he
        exact hi (hm.lt he)
    have hsize : ((m.used.card : Nat) : Int) = m.size := hm.size.symm
    cases m
    simp only [cut, funext helems, mk.injEq, and_true, true_and]
    exact hsize
  exact ⟨f, hsame ▸ hf⟩

theorem store_ne_outmem : (m.store index key value).1 ≠ .HMAP_E_OUTMEM := by
  unfold store
  split <;> simp

theorem store_keyused (h : (m.store index key value).1 = .HMAP_E_KEYUSED) :
    (m.store index key value).2 = m := by
  unfold store at h ⊢
  split at h
  · rfl
  · cases h

/-- A rehashing that ends early ends with a failed `hashmap_put`. -/
theorem rehashLoop_failed {old : Slots CStr β} {is : List Nat}
    (hloop : rehashLoop put old is m = some (st, m')) (hst : st ≠ .HMAP_S_OK) :
    ∃ m₁ key value, put m₁ key value = some (st, m') := by
  induction is generalizing m with
  | nil =>
    cases hloop
    exact absurd rfl hst
  | cons i is ih =>
    cases hold : old i with
    | none =>
      simp only [rehashLoop, hold] at hloop
      exact ih hloop
    | some e =>
      simp only [rehashLoop, hold] at hloop
      cases hres : put m e.1 e.2 with
      | none =>
        rw [hres] at hloop
        cases hloop
      | some res =>
        obtain ⟨st₁, m₁⟩ := res
        rw [hres] at hloop
        cases st₁ with
        | HMAP_S_OK => exact ih hloop
        | HMAP_E_KEYUSED | HMAP_E_OUTMEM | HMAP_E_NOTFOUND =>
          cases hloop
          exact ⟨m, e.1, e.2, hres⟩

/-- `hashmap_put` is out of memory when the table it ends with cannot be doubled. -/
theorem hashmapPut_refused
    (hres : m.hashmapPut calloc fuel key value = some (.HMAP_E_OUTMEM, m')) :
    ¬ Granted calloc (2 * m'.table_size) := by
  induction fuel generalizing m key value with
  | zero =>
    obtain ⟨index, -, hstored⟩ := Option.map_eq_some_iff.mp hres
    exact absurd (congrArg Prod.fst hstored) store_ne_outmem
  | succ fuel ih =>
    rcases hashmapPut_inv hres with ⟨index, -, hstored⟩ | ⟨-, ⟨-, hre⟩ | ⟨st₁, m₁, -, -, hres⟩⟩
    · exact absurd (congrArg Prod.fst hstored) store_ne_outmem
    · rcases hashmapRehash_cases hre with ⟨-, hloop⟩ | ⟨hsize, -, rfl⟩
      · obtain ⟨m₁, key, value, hres⟩ := rehashLoop_failed hloop (by decide)
        exact ih hres
      · exact hsize
    · exact ih hres

theorem hashmapRehash_refused
    (hre : hashmapRehash calloc (hashmapPut calloc fuel) m = some (.HMAP_E_OUTMEM, m')) :
    ¬ Granted calloc (2 * m'.table_size) := by
  rcases hashmapRehash_cases hre with ⟨-, hloop⟩ | ⟨hsize, -, rfl⟩
  · obtain ⟨m₁, key, value, hres⟩ := rehashLoop_failed hloop (by decide)
    exact hashmapPut_refused hres
  · exact hsize

/-- No insertion makes the table smaller. -/
theorem hashmapPut_grows {n : Nat} (hn : n ≤ m.table_size)
    (hres : m.hashmapPut calloc fuel key value = some (st, m')) : n ≤ m'.table_size := by
  refine hashmapPut_keeps (P := fun m => n ≤ m.table_size) (Q := fun _ => True) ?_ ?_ ?_ trivial
    hn hres
  · intro _ _ _ _ _ _
    trivial
  · intro m key value index _ hm _
    unfold store
    split <;> exact hm
  · intro m hm _
    exact hm.trans (Nat.le_mul_of_pos_left _ Nat.two_pos)

theorem rehashLoop_grows {n : Nat} {old : Slots CStr β} {is : List Nat} (hn : n ≤ m.table_size)
    (hloop : rehashLoop (hashmapPut calloc fuel) old is m = some (st, m')) :
    n ≤ m'.table_size := by
  refine rehashLoop_keeps (P := fun m => n ≤ m.table_size) (Q := fun _ => True) ?_ ?_ hn hloop
  · intro m key value st m' _ hn hres
    exact hashmapPut_grows hn hres
  · intro _ _ _ _
    trivial

/-- **Growing loses nothing.** `_hashmap_rehash` runs out of memory, the table then being one that
cannot be doubled, or it keeps the keys, the values and the size. -/
theorem hashmapRehash_keeps_all (hm : m.Placed) (hd : m.Distinct)
    (hre : hashmapRehash calloc (hashmapPut calloc fuel) m = some (st, m')) :
    (st = .HMAP_E_OUTMEM ∧ ¬ Granted calloc (2 * m'.table_size)) ∨
      st = .HMAP_S_OK ∧
        (∀ i key value, m.elems i = some (key, value) →
          m'.hashmapGet key = (.HMAP_S_OK, some value)) ∧
        (∀ key, (∀ i value, m.elems i ≠ some (key, value)) →
          m'.hashmapGet key = (.HMAP_E_NOTFOUND, none)) ∧
        m'.size = m.size ∧ 2 * m.table_size ≤ m'.table_size := by
  obtain ⟨f, hf⟩ := exists_holds hm hd
  by_cases hst : st = .HMAP_E_OUTMEM
  · subst hst
    exact .inl ⟨rfl, hashmapRehash_refused hre⟩
  obtain ⟨hok, hf', -⟩ := hashmapRehash_spec hashmapPut_spec hf hre hst
  refine .inr ⟨hok, ?_, ?_, ?_, ?_⟩
  · intro i key value hslot
    have hkey := (hf.slots.lookup key value).mpr ⟨i, hslot⟩
    simp [hashmapGet_eq hf', hkey]
  · intro key habsent
    have hkey : f.lookup key = none := by
      rw [Option.eq_none_iff_forall_not_mem]
      intro v hv
      obtain ⟨i, hi⟩ := (hf.slots.lookup key v).mp hv
      exact habsent i v hi
    simp [hashmapGet_eq hf', hkey]
  · rw [hf'.size, hf.size]
  · rcases hashmapRehash_cases hre with ⟨-, hloop⟩ | ⟨-, hout, -⟩
    · exact rehashLoop_grows le_rfl hloop
    · exact absurd hout hst

theorem fill_holds {entries : List (CStr × β)} (hm : m.Holds f) (hpacked : m.Packed) :
    ∃ f', (m.fill entries).Holds f' := by
  induction entries generalizing m f with
  | nil => exact ⟨f, hm⟩
  | cons e entries ih =>
    rw [fill]
    cases hindex : m.hashmapHash e.1 with
    | none => exact ih hm hpacked
    | some index =>
      have hstore : m.store index e.1 e.2 = ((m.store index e.1 e.2).1, _) := rfl
      cases hkey : f.lookup e.1 with
      | none =>
        obtain ⟨-, hm', hkeep⟩ := store_absent hm hkey hindex hstore
        exact ih hm' (hkeep hpacked)
      | some v =>
        have hused := store_present hm hkey (fun hhid => hpacked _ hhid.2) hindex hstore
        simp only [store_keyused hused.1]
        exact ih hm hpacked

/-- A table of two keys is doubled. -/
theorem hashmapRehash_keeps_all_sampleTwo :
    ∃ st m',
      hashmapRehash (fun _ => true) (hashmapPut (fun _ => true) 0) sampleTwo = some (st, m') ∧
      ((st = .HMAP_E_OUTMEM ∧ ¬ Granted (fun _ => true) (2 * m'.table_size)) ∨
        st = .HMAP_S_OK ∧
          (∀ i key value, sampleTwo.elems i = some (key, value) →
            m'.hashmapGet key = (.HMAP_S_OK, some value)) ∧
          (∀ key, (∀ i value, sampleTwo.elems i ≠ some (key, value)) →
            m'.hashmapGet key = (.HMAP_E_NOTFOUND, none)) ∧
          m'.size = sampleTwo.size ∧ 2 * sampleTwo.table_size ≤ m'.table_size) := by
  have hsome : (hashmapRehash (fun _ => true) (hashmapPut (fun _ => true) 0) sampleTwo).isSome := by
    decide +kernel
  obtain ⟨⟨st, m'⟩, hre⟩ := Option.isSome_iff_exists.mp hsome
  have hplaced : sampleTwo.Placed := (sound_reach (fill_reach (.init rfl))).toPlaced
  obtain ⟨f, hf⟩ : ∃ f, sampleTwo.Holds f := fill_holds (holds_empty (by decide)) packed_empty
  exact ⟨st, m', hre, hashmapRehash_keeps_all hplaced hf.slots.unique hre⟩

end HashMap

end DevTools.Daemon
