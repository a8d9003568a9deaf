import DevTools.Daemon.HashMap
import DevTools.Lib.Transition

/-!
# The hash map and a finite map

A session calls the hash map, and keeps a finite map beside it to which it does what each call
should do.

**Theorem (`refines_iff`).** As long as no `hashmap_put` has been made on a present key that is
shadowed (a slot before the key's own in its window is blank, and the table is not half full),
every call answers like the finite map exactly if it is not such a `hashmap_put` itself.

A shadowed key comes from a deletion, which blanks a slot and leaves everything else where it was.
Doubling the table puts every key again and leaves none of them shadowed.
-/

namespace DevTools.Daemon

/-! ## Windows -/

theorem lt_of_mem_probes {table_size n curr i : Nat} (hpos : 0 < table_size)
    (hcurr : curr < table_size) (hi : i ∈ probes table_size n curr) : i < table_size := by
  induction n generalizing curr with
  | zero => cases hi
  | succ n ih =>
    rcases List.mem_cons.mp hi with rfl | hi
    · exact hcurr
    · exact ih (Nat.mod_lt _ hpos) hi

theorem lt_of_mem_window {table_size i : Nat} {key : CStr} (hpos : 0 < table_size)
    (hi : i ∈ window table_size key) : i < table_size :=
  lt_of_mem_probes hpos (Nat.mod_lt _ hpos) hi

namespace HashMap

variable {β : Type}

/-- The finite map that a table stands for. -/
abbrev Contents (β : Type) := Finmap fun _ : CStr => β

/-- The table holds the map, and counts it right. -/
structure Holds (m : HashMap β) (f : Contents β) : Prop where
  pos : 0 < m.table_size
  slots : Represents (window m.table_size) m.elems f
  size : m.size = f.keys.card

/-- No key is shadowed in the table. -/
def Packed (m : HashMap β) : Prop := Tight (window m.table_size) m.elems

/-- `hashmap_put` looks for the key and stops too early. -/
def Hidden (m : HashMap β) (key : CStr) : Prop :=
  ¬ m.halfFull ∧ Shadowed (window m.table_size) m.elems key

variable {m m' : HashMap β} {f : Contents β} {key : CStr} {value v : β} {st : Status}
  {calloc : Nat → Bool} {fuel index : Nat}

theorem holds_empty {n : Nat} (hpos : 0 < n) : Holds ⟨n, 0, fun _ => none⟩ (∅ : Contents β) :=
  ⟨hpos, Represents.empty, by simp⟩

theorem packed_empty {n : Nat} : Packed (⟨n, 0, fun _ => none⟩ : HashMap β) := Tight.empty

/-! ## The size -/

theorem keys_insert (f : Contents β) (key : CStr) (value : β) :
    (f.insert key value).keys = Insert.insert key f.keys := by
  ext k
  rw [Finmap.mem_keys, Finmap.mem_insert, Finset.mem_insert, Finmap.mem_keys]

theorem card_keys_insert (hkey : f.lookup key = none) :
    (f.insert key value).keys.card = f.keys.card + 1 := by
  have hnot : key ∉ f.keys := by rwa [Finmap.mem_keys, ← Finmap.lookup_eq_none]
  rw [keys_insert, Finset.card_insert_of_notMem hnot]

theorem card_keys_erase (hkey : f.lookup key = some v) :
    (f.erase key).keys.card + 1 = f.keys.card := by
  have hmem : key ∈ f.keys := by
    rw [Finmap.mem_keys, ← Finmap.lookup_isSome, hkey]
    rfl
  rw [Finmap.keys_erase, Finset.card_erase_add_one hmem]

/-! ## Putting into the slot that was found -/

theorem hashmapHash_eq_some (h : m.hashmapHash key = some index) :
    ¬ m.halfFull ∧ (window m.table_size key).find? (m.elems.stops key) = some index := by
  unfold hashmapHash at h
  split_ifs at h with hfull
  exact ⟨hfull, h⟩

/-- A new key goes into a blank slot. -/
theorem store_absent (hm : Holds m f) (hkey : f.lookup key = none)
    (hindex : m.hashmapHash key = some index) (hstore : m.store index key value = (st, m')) :
    st = .HMAP_S_OK ∧ Holds m' (f.insert key value) ∧ (m.Packed → m'.Packed) := by
  obtain ⟨-, hfind⟩ := hashmapHash_eq_some hindex
  have hblank := hm.slots.stops_of_absent hkey hfind
  simp only [store, hblank] at hstore
  cases hstore
  refine ⟨rfl, ⟨hm.pos, ?_, ?_⟩, fun htight => Tight.insert htight hfind⟩
  · exact hm.slots.insert hkey hblank (List.mem_of_find?_eq_some hfind)
  · simp [hm.size, card_keys_insert hkey]

/-- A present key is found, if it is not hidden. -/
theorem store_present (hm : Holds m f) (hkey : f.lookup key = some v) (hseen : ¬ m.Hidden key)
    (hindex : m.hashmapHash key = some index) (hstore : m.store index key value = (st, m')) :
    st = .HMAP_E_KEYUSED ∧ Holds m' f := by
  obtain ⟨hfull, hfind⟩ := hashmapHash_eq_some hindex
  obtain ⟨i, hi, hslot⟩ := hm.slots.stops_of_present hkey (fun hs => hseen ⟨hfull, hs⟩)
  rw [hi, Option.some_inj] at hfind
  subst hfind
  simp only [store, hslot] at hstore
  cases hstore
  exact ⟨rfl, hm⟩

/-- A hidden key is put a second time. -/
theorem store_hidden (value : β) (hm : Holds m f) (hhid : m.Hidden key) :
    ∃ index, m.hashmapHash key = some index ∧ (m.store index key value).1 = .HMAP_S_OK := by
  obtain ⟨hfull, hs⟩ := hhid
  obtain ⟨i, hi, hblank⟩ := hm.slots.stops_of_shadowed hs
  refine ⟨i, ?_, ?_⟩
  · rw [hashmapHash, if_neg hfull, hi]
  · simp only [store, hblank]

/-! ## `hashmap_put` and `_hashmap_rehash` -/

/-- What `hashmap_put` is meant to do, in a call that is not out of memory. -/
structure PutSpec (put : HashMap β → CStr → β → Option (Status × HashMap β)) : Prop where
  absent : ∀ {m m' f key value st}, Holds m f → f.lookup key = none →
    put m key value = some (st, m') → st ≠ .HMAP_E_OUTMEM →
    st = .HMAP_S_OK ∧ Holds m' (f.insert key value) ∧ (m.Packed → m'.Packed)
  present : ∀ {m m' f key value v st}, Holds m f → f.lookup key = some v → ¬ m.Hidden key →
    put m key value = some (st, m') → st ≠ .HMAP_E_OUTMEM →
    st = .HMAP_E_KEYUSED ∧ Holds m' f

/-- The entries of some slots of the old table are added to those already in the new one. -/
theorem rehashLoop_spec {put : HashMap β → CStr → β → Option (Status × HashMap β)}
    (hput : PutSpec put) {old : Slots CStr β}
    (hunique : ∀ i j k v v', old i = some (k, v) → old j = some (k, v') → i = j)
    {is : List Nat} (hnodup : is.Nodup) {m m' : HashMap β} {g : Contents β} {st : Status}
    (hm : Holds m g) (hpacked : m.Packed)
    (hnew : ∀ i ∈ is, ∀ k v, old i = some (k, v) → g.lookup k = none)
    (hloop : rehashLoop put old is m = some (st, m')) (hst : st ≠ .HMAP_E_OUTMEM) :
    st = .HMAP_S_OK ∧ ∃ g', Holds m' g' ∧ m'.Packed ∧
      ∀ k v, g'.lookup k = some v ↔ g.lookup k = some v ∨ ∃ i ∈ is, old i = some (k, v) := by
  induction is generalizing m g with
  | nil =>
    cases hloop
    exact ⟨rfl, g, hm, hpacked, by simp⟩
  | cons i is ih =>
    obtain ⟨hi, hnodup⟩ := List.nodup_cons.mp hnodup
    have hnew' := fun j hj => hnew j (List.mem_cons_of_mem i hj)
    cases hold : old i with
    | none =>
      simp only [rehashLoop, hold] at hloop
      obtain ⟨hok, g', hm', hpacked', hg'⟩ := ih hnodup hm hpacked hnew' hloop
      exact ⟨hok, g', hm', hpacked', by simp [hg', hold]⟩
    | some e =>
      obtain ⟨k, v⟩ := e
      simp only [rehashLoop, hold] at hloop
      have hk := hnew i List.mem_cons_self k v hold
      cases hres : put m k v with
      | none =>
        rw [hres] at hloop
        cases hloop
      | some res =>
        obtain ⟨st₁, m₁⟩ := res
        rw [hres] at hloop
        by_cases hout : st₁ = .HMAP_E_OUTMEM
        · subst hout
          cases hloop
          exact absurd rfl hst
        · obtain ⟨rfl, hm₁, hpacked₁⟩ := hput.absent hm hk hres hout
          -- the keys still to come are not the one just put
          have hnew₁ : ∀ j ∈ is, ∀ k' v', old j = some (k', v') →
              (g.insert k v).lookup k' = none := by
            intro j hj k' v' hold'
            have hne : k' ≠ k := by
              rintro rfl
              exact hi (hunique i j k' v v' hold hold' ▸ hj)
            rw [Finmap.lookup_insert_of_ne g hne]
            exact hnew' j hj k' v' hold'
          obtain ⟨hok, g', hm', hpacked', hg'⟩ := ih hnodup hm₁ (hpacked₁ hpacked) hnew₁ hloop
          refine ⟨hok, g', hm', hpacked', ?_⟩
          intro k' v'
          rw [hg']
          by_cases hne : k' = k
          · subst hne
            simp [hold, hk]
          · simp [hold, Finmap.lookup_insert_of_ne g hne, Ne.symm hne]

/-- Rehashing keeps the map, and leaves no key shadowed. -/
theorem hashmapRehash_spec {put : HashMap β → CStr → β → Option (Status × HashMap β)}
    (hput : PutSpec put) (hm : Holds m f)
    (hre : hashmapRehash calloc put m = some (st, m')) (hst : st ≠ .HMAP_E_OUTMEM) :
    st = .HMAP_S_OK ∧ Holds m' f ∧ m'.Packed := by
  unfold hashmapRehash at hre
  split_ifs at hre with hsize
  · have hpos : 0 < 2 * m.table_size := Nat.mul_pos Nat.two_pos hm.pos
    obtain ⟨hok, g, hg, hpacked, hlookup⟩ := rehashLoop_spec hput hm.slots.unique
      List.nodup_range (holds_empty hpos) packed_empty (by simp) hre hst
    have hfg : g = f := by
      refine Finmap.ext_lookup fun k => Option.ext fun v => ?_
      rw [hlookup, hm.slots.lookup]
      constructor
      · intro hw
        rcases hw with hempty | ⟨i, -, hi⟩
        · simp at hempty
        · exact ⟨i, hi⟩
      · intro hw
        rcases hw with ⟨i, hi⟩
        have hlt := lt_of_mem_window hm.pos (hm.slots.inWindow i k v hi)
        exact .inr ⟨i, List.mem_range.mpr hlt, hi⟩
    exact ⟨hok, hfg ▸ hg, hpacked⟩
  · cases hre
    exact absurd rfl hst

/-- One call of `hashmap_put`: the slot is there, or the table is doubled first. -/
theorem hashmapPut_inv (hres : hashmapPut calloc (fuel + 1) m key value = some (st, m')) :
    (∃ index, m.hashmapHash key = some index ∧ m.store index key value = (st, m')) ∨
      m.hashmapHash key = none ∧
        ((st = .HMAP_E_OUTMEM ∧
          hashmapRehash calloc (hashmapPut calloc fuel) m = some (.HMAP_E_OUTMEM, m')) ∨
        ∃ st₁ m₁, hashmapRehash calloc (hashmapPut calloc fuel) m = some (st₁, m₁) ∧
          st₁ ≠ .HMAP_E_OUTMEM ∧ hashmapPut calloc fuel m₁ key value = some (st, m')) := by
  unfold hashmapPut at hres
  split at hres
  · rename_i index hindex
    exact .inl ⟨index, hindex, Option.some_inj.mp hres⟩
  · rename_i hnone
    refine .inr ⟨hnone, ?_⟩
    split at hres
    · cases hres
    · rename_i m₁ hre
      cases hres
      exact .inl ⟨rfl, hre⟩
    · rename_i st₁ m₁ hout hre
      exact .inr ⟨st₁, m₁, hre, hout, hres⟩

theorem hashmapPut_spec : PutSpec (hashmapPut calloc fuel : HashMap β → _) := by
  induction fuel with
  | zero =>
    constructor
    · intro m m' f key value st hm hkey hres _
      obtain ⟨index, hindex, hstore⟩ := Option.map_eq_some_iff.mp hres
      exact store_absent hm hkey hindex hstore
    · intro m m' f key value v st hm hkey hseen hres _
      obtain ⟨index, hindex, hstore⟩ := Option.map_eq_some_iff.mp hres
      exact store_present hm hkey hseen hindex hstore
  | succ fuel ih =>
    constructor
    · intro m m' f key value st hm hkey hres hst
      rcases hashmapPut_inv hres with
        ⟨index, hindex, hstore⟩ | ⟨-, ⟨hout, -⟩ | ⟨st₁, m₁, hre, hst₁, hres⟩⟩
      · exact store_absent hm hkey hindex hstore
      · exact absurd hout hst
      · obtain ⟨-, hm₁, hpacked⟩ := hashmapRehash_spec ih hm hre hst₁
        obtain ⟨hok, hm', hkeep⟩ := ih.absent hm₁ hkey hres hst
        exact ⟨hok, hm', fun _ => hkeep hpacked⟩
    · intro m m' f key value v st hm hkey hseen hres hst
      rcases hashmapPut_inv hres with
        ⟨index, hindex, hstore⟩ | ⟨-, ⟨hout, -⟩ | ⟨st₁, m₁, hre, hst₁, hres⟩⟩
      · exact store_present hm hkey hseen hindex hstore
      · exact absurd hout hst
      · obtain ⟨-, hm₁, hpacked⟩ := hashmapRehash_spec ih hm hre hst₁
        exact ih.present hm₁ hkey (fun hhid => hpacked key hhid.2) hres hst

theorem hashmapPut_hidden (hm : Holds m f) (hhid : m.Hidden key)
    (hres : hashmapPut calloc fuel m key value = some (st, m')) : st = .HMAP_S_OK := by
  obtain ⟨index, hindex, hstore⟩ := store_hidden value hm hhid
  cases fuel with
  | zero =>
    rw [hashmapPut, hindex, Option.map_some, Option.some_inj] at hres
    rwa [hres] at hstore
  | succ fuel =>
    simp only [hashmapPut, hindex, Option.some_inj] at hres
    rwa [hres] at hstore

/-! ## `hashmap_get` and `hashmap_remove` -/

theorem hashmapGet_eq (hm : Holds m f) : m.hashmapGet key =
    (if f.lookup key = none then .HMAP_E_NOTFOUND else .HMAP_S_OK, f.lookup key) := by
  unfold hashmapGet
  cases hkey : f.lookup key with
  | none => rw [hm.slots.find_holds_none hkey, if_pos rfl]
  | some v =>
    obtain ⟨i, hi, hslot⟩ := hm.slots.find_holds hkey
    simp [hi, hslot]

theorem hashmapRemove_eq (hm : Holds m f) : (m.hashmapRemove key).1 =
    (if f.lookup key = none then .HMAP_E_NOTFOUND else .HMAP_S_OK, f.lookup key) := by
  unfold hashmapRemove
  cases hkey : f.lookup key with
  | none => rw [hm.slots.find_holds_none hkey, if_pos rfl]
  | some v =>
    obtain ⟨i, hi, hslot⟩ := hm.slots.find_holds hkey
    simp [hi, hslot]

theorem hashmapRemove_holds (key : CStr) (hm : Holds m f) :
    Holds (m.hashmapRemove key).2 (f.erase key) := by
  unfold hashmapRemove
  cases hkey : f.lookup key with
  | none =>
    rw [hm.slots.find_holds_none hkey]
    have hsame : f.erase key = f := by
      refine Finmap.ext_lookup fun k => ?_
      by_cases hk : k = key
      · rw [hk, Finmap.lookup_erase, hkey]
      · rw [Finmap.lookup_erase_ne hk]
    rwa [hsame]
  | some v =>
    obtain ⟨i, hi, hslot⟩ := hm.slots.find_holds hkey
    rw [hi]
    refine ⟨hm.pos, hm.slots.erase hslot, ?_⟩
    have hcard := card_keys_erase hkey
    simp only [hm.size]
    omega

/-! ## The entries of a table -/

/-- What the used slots hold, from the first to the last. -/
def entries (m : HashMap β) : List (CStr × β) := (List.range m.table_size).filterMap m.elems

/-- The table holds the entries of the map and no others, each once. -/
theorem Holds.entries_eq (hm : m.Holds f) :
    (m.entries : Multiset (CStr × β)) = f.entries.map fun e => (e.1, e.2) := by
  have hinj : Function.Injective fun e : (_ : CStr) × β => (e.1, e.2) := by
    rintro ⟨k, v⟩ ⟨k', v'⟩ heq
    cases heq
    rfl
  have hnodup : m.entries.Nodup := by
    refine List.Nodup.filterMap ?_ List.nodup_range
    rintro i j ⟨k, v⟩ hi hj
    exact hm.slots.unique i j k v v hi hj
  refine (Multiset.Nodup.ext (Multiset.coe_nodup.mpr hnodup)
    (f.nodup_entries.map hinj)).mpr ?_
  rintro ⟨k, v⟩
  rw [Multiset.mem_coe, entries, List.mem_filterMap, Multiset.mem_map]
  constructor
  · rintro ⟨i, -, hslot⟩
    exact ⟨⟨k, v⟩, Finmap.mem_lookup_iff.mp ((hm.slots.lookup k v).mpr ⟨i, hslot⟩), rfl⟩
  · rintro ⟨⟨k', v'⟩, hmem, heq⟩
    obtain ⟨rfl, rfl⟩ : k' = k ∧ v' = v := Prod.mk.inj heq
    obtain ⟨i, hslot⟩ := (hm.slots.lookup k' v').mp (Finmap.mem_lookup_iff.mpr hmem)
    have hlt := lt_of_mem_window hm.pos (hm.slots.inWindow i k' v' hslot)
    exact ⟨i, List.mem_range.mpr hlt, hslot⟩

theorem Holds.length_entries (hm : m.Holds f) : (m.entries.length : Int) = m.size := by
  have hcard := congrArg Multiset.card hm.entries_eq
  rw [Multiset.coe_card, Multiset.card_map] at hcard
  have hkeys : f.keys.card = f.entries.card := Multiset.card_map Sigma.fst f.entries
  rw [hm.size, hcard, hkeys]

end HashMap

/-! ## Sessions -/

/-- A call. -/
inductive Call (β : Type)
  | put (key : CStr) (value : β)
  | get (key : CStr)
  | remove (key : CStr)
  | size

/-- What a call returns: a status, with a value for `hashmap_get` and `hashmap_remove`, or the
size. -/
inductive Reply (β : Type)
  | status (st : Status)
  | value (st : Status) (value : Option β)
  | size (n : Int)
  deriving DecidableEq

/-- What the calls do to a finite map. -/
def meant {β : Type} (f : HashMap.Contents β) : Call β → Reply β × HashMap.Contents β
  | .put key value =>
    if f.lookup key = none then (.status .HMAP_S_OK, f.insert key value)
    else (.status .HMAP_E_KEYUSED, f)
  | .get key =>
    (.value (if f.lookup key = none then .HMAP_E_NOTFOUND else .HMAP_S_OK) (f.lookup key), f)
  | .remove key =>
    (.value (if f.lookup key = none then .HMAP_E_NOTFOUND else .HMAP_S_OK) (f.lookup key),
      f.erase key)
  | .size => (.size f.keys.card, f)

/-- What the calls do to the table. A `hashmap_put` comes to an end, and is not out of memory. -/
inductive Answers {β : Type} (calloc : Nat → Bool) (m : HashMap β) :
    Call β → Reply β → HashMap β → Prop
  | put {key : CStr} {value : β} {fuel : Nat} {st : Status} {m' : HashMap β} :
      m.hashmapPut calloc fuel key value = some (st, m') → st ≠ .HMAP_E_OUTMEM →
      Answers calloc m (.put key value) (.status st) m'
  | get {key : CStr} :
      Answers calloc m (.get key) (.value (m.hashmapGet key).1 (m.hashmapGet key).2) m
  | remove {key : CStr} :
      Answers calloc m (.remove key)
        (.value (m.hashmapRemove key).1.1 (m.hashmapRemove key).1.2) (m.hashmapRemove key).2
  | size : Answers calloc m .size (.size m.hashmapSize) m

/-- The table and the map that it should be. -/
structure Session (β : Type) where
  table : HashMap β
  map : HashMap.Contents β

namespace Session

variable {β : Type} {calloc : Nat → Bool} {s s' : Session β} {call : Call β} {reply : Reply β}

/-- The calls of a session, with their replies. -/
def calls (calloc : Nat → Bool) : LTS (Session β) (Call β × Reply β) where
  init s := s = ⟨HashMap.hashmapCreate, ∅⟩
  step s a s' := Answers calloc s.table a.1 a.2 s'.table ∧ s'.map = (meant s.map a.1).2

/-- The call is not a `hashmap_put` of a hidden key. -/
def Seen (s : Session β) : Call β → Prop
  | .put key _ => ¬ s.table.Hidden key
  | _ => True

theorem answer_of_seen {m : HashMap β} (hs : s.table.Holds s.map) (hseen : s.Seen call)
    (ha : Answers calloc s.table call reply m) :
    m.Holds (meant s.map call).2 ∧ reply = (meant s.map call).1 := by
  cases ha with
  | @put key value fuel st m hres hst =>
    cases hkey : s.map.lookup key with
    | none =>
      obtain ⟨rfl, hm, -⟩ := HashMap.hashmapPut_spec.absent hs hkey hres hst
      simpa [meant, hkey] using hm
    | some v =>
      obtain ⟨rfl, hm⟩ := HashMap.hashmapPut_spec.present hs hkey hseen hres hst
      simpa [meant, hkey] using hm
  | get =>
    rw [HashMap.hashmapGet_eq hs]
    exact ⟨hs, rfl⟩
  | @remove key =>
    have hm := HashMap.hashmapRemove_holds key hs
    rw [HashMap.hashmapRemove_eq hs]
    exact ⟨hm, rfl⟩
  | size => exact ⟨hs, congrArg Reply.size hs.size⟩

theorem holds_reach (h : ((calls calloc).restrict fun s a => s.Seen a.1).Reach s) :
    s.table.Holds s.map := by
  refine LTS.Reach.invariant (T := (calls calloc).restrict fun s a => s.Seen a.1)
    (I := fun s : Session β => s.table.Holds s.map) ?_ ?_ h
  · intro s hs
    obtain rfl : s = ⟨HashMap.hashmapCreate, ∅⟩ := hs
    exact HashMap.holds_empty (by decide)
  · intro s a s' hs hstep
    obtain ⟨hseen, ha, hmap⟩ := hstep
    rw [hmap]
    exact (answer_of_seen hs hseen ha).1

/-- **The hash map refines a finite map, as long as no hidden key is put.** -/
theorem refines_iff (h : ((calls calloc).restrict fun s a => s.Seen a.1).Reach s)
    (ha : (calls calloc).step s (call, reply) s') :
    reply = (meant s.map call).1 ↔ s.Seen call := by
  have hs := holds_reach h
  refine ⟨?_, fun hseen => (answer_of_seen hs hseen ha.1).2⟩
  intro hreply
  cases call with
  | put key value =>
    intro hhid
    obtain ⟨-, before, i, after, v, -, -, hslot, -⟩ := id hhid
    have hkey := (hs.slots.lookup key v).mpr ⟨i, hslot⟩
    cases ha.1 with
    | put hres hst =>
      obtain rfl := HashMap.hashmapPut_hidden hs hhid hres
      simp [meant, hkey] at hreply
  | get | remove | size => trivial

/-! ## A key that is put twice -/

/-- A `hashmap_put` that needs no rehashing. -/
theorem answers_put {m : HashMap β} {key : CStr} {value : β} {st : Status} (index : Nat)
    (hindex : m.hashmapHash key = some index) (hst : (m.store index key value).1 = st)
    (hok : st ≠ .HMAP_E_OUTMEM) :
    Answers calloc m (.put key value) (.status st) (m.store index key value).2 := by
  subst hst
  have hput : m.hashmapPut calloc 0 key value = some (m.store index key value) := by
    rw [HashMap.hashmapPut, hindex]
    rfl
  exact .put hput hok

/-- Two keys with the same slot of a new table. -/
def sampleKeys : CStr × CStr := ([110, 97], [114, 97])

def sampleEmpty : Session Nat := ⟨HashMap.hashmapCreate, ∅⟩

def sampleFirst : Session Nat :=
  ⟨(sampleEmpty.table.store 102 sampleKeys.1 1).2, (meant sampleEmpty.map (.put sampleKeys.1 1)).2⟩

def sampleBoth : Session Nat :=
  ⟨(sampleFirst.table.store 103 sampleKeys.2 2).2, (meant sampleFirst.map (.put sampleKeys.2 2)).2⟩

/-- The first key is removed again, and the second one is hidden. -/
def sampleHidden : Session Nat :=
  ⟨(sampleBoth.table.hashmapRemove sampleKeys.1).2, (meant sampleBoth.map (.remove sampleKeys.1)).2⟩

def sampleTwice : Session Nat :=
  ⟨(sampleHidden.table.store 102 sampleKeys.2 3).2,
    (meant sampleHidden.map (.put sampleKeys.2 3)).2⟩

/-- The first key is put again, and nothing is hidden from it. -/
def sampleAgain : Session Nat :=
  ⟨(sampleHidden.table.store 102 sampleKeys.1 3).2,
    (meant sampleHidden.map (.put sampleKeys.1 3)).2⟩

theorem sampleFirst_step :
    (calls fun _ => true).step sampleEmpty (.put sampleKeys.1 1, .status .HMAP_S_OK)
      sampleFirst :=
  ⟨answers_put 102 (by decide +kernel) (by decide +kernel) (by decide), rfl⟩

theorem sampleBoth_step :
    (calls fun _ => true).step sampleFirst (.put sampleKeys.2 2, .status .HMAP_S_OK)
      sampleBoth :=
  ⟨answers_put 103 (by decide +kernel) (by decide +kernel) (by decide), rfl⟩

theorem sampleHidden_step :
    (calls fun _ => true).step sampleBoth (.remove sampleKeys.1, .value .HMAP_S_OK (some 1))
      sampleHidden := by
  have hreply : (sampleBoth.table.hashmapRemove sampleKeys.1).1 = (.HMAP_S_OK, some 1) := by
    decide +kernel
  have ha : Answers (fun _ => true) sampleBoth.table (.remove sampleKeys.1)
    (.value _ _) sampleHidden.table := .remove
  rw [hreply] at ha
  exact ⟨ha, rfl⟩

theorem sampleTwice_step :
    (calls fun _ => true).step sampleHidden (.put sampleKeys.2 3, .status .HMAP_S_OK)
      sampleTwice :=
  ⟨answers_put 102 (by decide +kernel) (by decide +kernel) (by decide), rfl⟩

/-- A present key is put, and `hashmap_put` returns `HMAP_S_OK`. -/
theorem not_refines :
    ∃ (s s' : Session Nat) (call : Call Nat) (reply : Reply Nat),
      (calls fun _ => true).Reach s ∧ (calls fun _ => true).step s (call, reply) s' ∧
        reply ≠ (meant s.map call).1 := by
  have hstart : (calls fun _ => true).Reach sampleEmpty := .init rfl
  have hhidden := ((hstart.step sampleFirst_step).step sampleBoth_step).step sampleHidden_step
  exact ⟨sampleHidden, sampleTwice, _, _, hhidden, sampleTwice_step, by decide +kernel⟩

theorem sampleAgain_step :
    (calls fun _ => true).step sampleHidden (.put sampleKeys.1 3, .status .HMAP_S_OK)
      sampleAgain :=
  ⟨answers_put 102 (by decide +kernel) (by decide +kernel) (by decide), rfl⟩

/-- A key that is not there is not hidden. -/
theorem seen_of_absent (h : ((calls calloc).restrict fun s a => s.Seen a.1).Reach s) {key : CStr}
    (hkey : s.map.lookup key = none) (value : β) : s.Seen (.put key value) := by
  intro hhid
  obtain ⟨-, before, i, after, v, -, -, hslot, -⟩ := hhid
  rw [((holds_reach h).slots.lookup key v).mpr ⟨i, hslot⟩] at hkey
  cases hkey

/-- Both keys are put, and the first one is removed. -/
theorem sampleHidden_reach :
    ((calls fun _ => true).restrict fun s a => s.Seen a.1).Reach sampleHidden := by
  have hstart : ((calls fun _ => true).restrict fun s a => s.Seen a.1).Reach sampleEmpty :=
    .init rfl
  have hfirst := hstart.step ⟨seen_of_absent hstart (by decide +kernel) 1, sampleFirst_step⟩
  have hboth := hfirst.step ⟨seen_of_absent hfirst (by decide +kernel) 2, sampleBoth_step⟩
  exact hboth.step (a := (.remove sampleKeys.1, .value .HMAP_S_OK (some 1)))
    ⟨trivial, sampleHidden_step⟩

/-- The removed key is put again. -/
theorem refines_iff_sample :
    (Reply.status .HMAP_S_OK : Reply Nat) = (meant sampleHidden.map (.put sampleKeys.1 3)).1 ∧
      sampleHidden.table.hashmapSize = 1 := by
  have habsent : sampleHidden.map.lookup sampleKeys.1 = none := by decide +kernel
  have hseen := seen_of_absent sampleHidden_reach habsent 3
  exact ⟨(refines_iff sampleHidden_reach sampleAgain_step).mpr hseen, by decide +kernel⟩

end Session

end DevTools.Daemon
