import DevTools.Daemon.Reinsertion

/-!
# Doubling the table

After `i + 1` doublings the table has `m.doubled i` slots, and the entries come to it in the order
`m.coming i`. They fit if each of them finds a slot.

**Theorem (`settles_iff`).** With memory for every size, `hashmap_put` comes to an end before
`2 * table_size` overflows exactly if there is a slot at once, or the entries fit into a table of at
most `2 ^ 30` slots, with the new one as the last. Nine keys with the same CRC fit into no table
(`not_settles`).

**Theorem (`atomic_iff`).** A `hashmap_put` that is out of memory changes nothing exactly if already
the first doubling was refused, or no key is in two slots and the entries fit into the last table
for which there was memory. Otherwise a key is put again without success, and the ones after it are
lost (`not_atomic`).

A key is crowded at a table size if other keys could fill its eight slots. Where no key is crowded,
the entries fit in whatever order they come (`fits_of_spread`).
-/

namespace DevTools.Daemon

/-- Other keys of `K` could fill the window of the key. -/
def Crowded (K : Finset CStr) (n : Nat) (key : CStr) : Prop :=
  ∃ sitting : Nat → CStr, Set.InjOn sitting {i | i ∈ window n key} ∧
    ∀ i ∈ window n key, sitting i ∈ K ∧ sitting i ≠ key ∧ i ∈ window n (sitting i)

theorem probes_nodup {table_size n curr : Nat} (hcurr : curr < table_size)
    (hn : n ≤ table_size) : (probes table_size n curr).Nodup := by
  induction n generalizing curr with
  | zero => exact List.nodup_nil
  | succ n ih =>
    have hpos : 0 < table_size := Nat.zero_lt_of_lt hcurr
    have hnext : (curr + 1) % table_size < table_size := Nat.mod_lt _ hpos
    refine List.nodup_cons.mpr ⟨?_, ih hnext (Nat.le_of_succ_le hn)⟩
    intro hmem
    obtain ⟨j, hj, heq⟩ := (mem_probes_iff hnext).mp hmem
    rw [Nat.mod_add_mod] at heq
    by_cases hwrap : curr + 1 + j < table_size
    · rw [Nat.mod_eq_of_lt hwrap] at heq
      omega
    · rw [Nat.mod_eq_sub_mod (Nat.le_of_not_lt hwrap), Nat.mod_eq_of_lt (by omega)] at heq
      omega

/-- The other keys whose windows meet that of the key. -/
def around (K : Finset CStr) (n : Nat) (key : CStr) : Finset CStr :=
  (K.erase key).filter fun k => ∃ i ∈ window n key, i ∈ window n k

/-- A crowded key has eight others around it. -/
theorem Crowded.card_le {K : Finset CStr} {n : Nat} {key : CStr} (h : Crowded K n key)
    (hn : 8 ≤ n) : 8 ≤ (around K n key).card := by
  obtain ⟨sitting, hinj, hsit⟩ := h
  have hnodup : (window n key).Nodup := probes_nodup (Nat.mod_lt _ (by omega)) hn
  have hcard : (window n key).toFinset.card = 8 := by
    rw [List.toFinset_card_of_nodup hnodup]
    rfl
  rw [← hcard]
  refine Finset.card_le_card_of_injOn sitting ?_ (by simpa using hinj)
  intro i hi
  have hi : i ∈ window n key := by simpa using hi
  obtain ⟨hK, hne, hmem⟩ := hsit i hi
  simp only [around, Finset.coe_filter, Finset.mem_erase, Set.mem_ofPred_eq]
  exact ⟨⟨hne, hK⟩, i, hi, hmem⟩

namespace HashMap

variable {β : Type} {m m' t : HashMap β} {f f' : Contents β} {key : CStr} {value v : β}
  {st : Status} {calloc : Nat → Bool} {fuel index i j n : Nat} {K : Finset CStr} {ok : Bool}
  {e : CStr × β} {es rest : List (CStr × β)}
  {put : HashMap β → CStr → β → Option (Status × HashMap β)}

/-! ## The order in which entries come -/

/-- The table size after `i + 1` doublings. -/
def doubled (m : HashMap β) (i : Nat) : Nat := m.table_size * 2 ^ (i + 1)

/-- What is put into the table of that size, in this order: the entries of the table before it in
the order of their slots, and those that had found no slot there. -/
def coming (m : HashMap β) : Nat → List (CStr × β)
  | 0 => news ∅ m.entries
  | i + 1 =>
    let before := (blank (m.doubled i)).refill (m.coming i)
    before.1.entries ++ before.2

/-- Each entry finds a slot in a table of `n`. -/
def Fits (n : Nat) (es : List (CStr × β)) : Prop := ((blank n).refill es).2 = []

instance (n : Nat) (es : List (CStr × β)) : Decidable (Fits n es) :=
  inferInstanceAs (Decidable (_ = []))

theorem doubled_succ (m : HashMap β) (i : Nat) : m.doubled (i + 1) = 2 * m.doubled i := by
  rw [doubled, doubled, pow_succ' 2 (i + 1), Nat.mul_left_comm]

theorem doubled_zero (m : HashMap β) : m.doubled 0 = 2 * m.table_size := by
  rw [doubled, pow_one, Nat.mul_comm]

theorem doubled_pos (hpos : 0 < m.table_size) (i : Nat) : 0 < m.doubled i :=
  Nat.mul_pos hpos (Nat.two_pow_pos _)

theorem doubled_le_iff (hpos : 0 < m.table_size) : m.doubled i ≤ m.doubled j ↔ i ≤ j := by
  rw [doubled, doubled, Nat.mul_le_mul_left_iff hpos, Nat.pow_le_pow_iff_right (by decide),
    Nat.add_le_add_iff_right]

/-- If the entries do not fit, they come again in the next order, the new one last. -/
theorem coming_succ (h : (blank (m.doubled i)).refill (m.coming i ++ [e]) = (t, es))
    (hne : es ≠ []) :
    (blank (m.doubled i)).refill (m.coming i) = (t, ((blank (m.doubled i)).refill (m.coming i)).2) ∧
      t.table_size = m.doubled i ∧ t.entries ++ es = m.coming (i + 1) ++ [e] := by
  obtain ⟨e', rest, rfl⟩ := List.exists_cons_of_ne_nil hne
  obtain ⟨left, hleft, heq⟩ := refill_concat h
  have hsize := table_size_refill (blank (m.doubled i)) (m.coming i)
  rw [hleft] at hsize
  refine ⟨by rw [hleft], hsize, ?_⟩
  rw [coming, hleft, List.append_assoc, heq]

/-- Where climbing ends. -/
theorem Climbs.levels (h : Climbs calloc t es ok m') (ht : t = blank (m.doubled i))
    (hes : es = m.coming i ++ [e]) :
    if ok then ∃ j, Fits (m.doubled j) (m.coming j ++ [e]) ∧ m'.table_size = m.doubled j
    else ∃ j, (∀ l, i ≤ l → l ≤ j → ¬ Fits (m.doubled l) (m.coming l ++ [e])) ∧
      m' = ((blank (m.doubled j)).refill (m.coming j)).1 ∧
      (∀ l, i < l → l ≤ j → Granted calloc (m.doubled l)) ∧
      ¬ Granted calloc (m.doubled (j + 1)) := by
  induction h generalizing i with
  | @done t t' es all =>
    subst ht hes
    have hsize := table_size_refill (blank (m.doubled i)) (m.coming i ++ [e])
    rw [all] at hsize
    exact ⟨i, congrArg Prod.snd all, hsize⟩
  | @refused t t' es rest e' some refused =>
    subst ht hes
    obtain ⟨hcoming, hsize, -⟩ := coming_succ some (List.cons_ne_nil _ _)
    have hfits : ¬ Fits (m.doubled i) (m.coming i ++ [e]) := by
      rw [Fits, some]
      exact List.cons_ne_nil _ _
    refine ⟨i, ?_, by rw [hcoming], ?_, ?_⟩
    · intro l hil hli
      obtain rfl := Nat.le_antisymm hli hil
      exact hfits
    · intro l hil hli
      exact absurd hil hli.not_gt
    · rwa [doubled_succ, ← hsize]
  | @again t t' t'' es rest e' ok some granted _ ih =>
    subst ht hes
    obtain ⟨-, hsize, hcoming⟩ := coming_succ some (List.cons_ne_nil _ _)
    have hfits : ¬ Fits (m.doubled i) (m.coming i ++ [e]) := by
      rw [Fits, some]
      exact List.cons_ne_nil _ _
    have hnext := @ih (i + 1) (by rw [doubled_succ, hsize]) hcoming
    cases ok with
    | true => exact hnext
    | false =>
      obtain ⟨j, hnot, htable, hgranted, hrefused⟩ := hnext
      refine ⟨j, ?_, htable, ?_, hrefused⟩
      · intro l hil hlj
        rcases hil.eq_or_lt with rfl | hlt
        · exact hfits
        · exact hnot l hlt hlj
      · intro l hil hlj
        rcases (Nat.succ_le_of_lt hil).eq_or_lt with rfl | hlt
        · rwa [doubled_succ, ← hsize]
        · exact hgranted l hlt hlj

/-! ## The keys of a table -/

/-- The keys that are in the table. -/
def keys (m : HashMap β) : Finset CStr :=
  m.used.image fun i => ((m.elems i).map Prod.fst).getD []

theorem Placed.mem_keys (hm : m.Placed) :
    key ∈ m.keys ↔ ∃ i value, m.elems i = some (key, value) := by
  simp only [keys, Finset.mem_image]
  constructor
  · intro h
    obtain ⟨i, hi, hkey⟩ := h
    obtain ⟨e, he⟩ := Option.isSome_iff_exists.mp (Finset.mem_filter.mp hi).2
    exact ⟨i, e.2, by rw [he, ← hkey, he]; rfl⟩
  · intro h
    obtain ⟨i, value, hslot⟩ := h
    refine ⟨i, ?_, by rw [hslot]; rfl⟩
    exact Finset.mem_filter.mpr ⟨Finset.mem_range.mpr (hm.lt hslot), by rw [hslot]; rfl⟩

theorem Sound.doubling (hm : m.Sound) (hK : K ⊆ insert key m.keys) (hkeys : m.keys ⊆ K) :
    Doubling K m := by
  refine ⟨hm.doubled, ?_, ?_⟩
  · have hsub := Finset.card_le_card hK
    have hinsert := Finset.card_insert_le key m.keys
    have himage : m.keys.card ≤ m.used.card := Finset.card_image_le
    have hsize := hm.size
    have hhalf := hm.half
    have hmin := TableSize.le hm.doubled
    omega
  · intro i k v hslot
    exact hkeys (hm.mem_keys.mpr ⟨i, v, hslot⟩)

theorem hashmapHash_of_outmem
    (hres : m.hashmapPut calloc fuel key value = some (.HMAP_E_OUTMEM, m')) :
    m.hashmapHash key = none := by
  cases hindex : m.hashmapHash key with
  | none => rfl
  | some index =>
    cases fuel with
    | zero =>
      rw [hashmapPut, hindex] at hres
      exact absurd (congrArg Prod.fst (Option.some_inj.mp hres)) store_ne_outmem
    | succ fuel =>
      rw [hashmapPut, hindex] at hres
      exact absurd (congrArg Prod.fst (Option.some_inj.mp hres)) store_ne_outmem

/-- A call that finds no slot, and has memory for the first doubling. -/
theorem Sound.climbs (hm : m.Sound) (hnone : m.hashmapHash key = none)
    (hgrant : Granted calloc (2 * m.table_size))
    (hres : m.hashmapPut calloc fuel key value = some (st, m')) :
    Climbs calloc (blank (m.doubled 0)) (m.coming 0 ++ [(key, value)]) (st ≠ .HMAP_E_OUTMEM)
      m' := by
  have hdoubling : Doubling (insert key m.keys) m :=
    hm.doubling subset_rfl (Finset.subset_insert _ _)
  rw [doubled_zero]
  exact hdoubling.climbs (Finset.mem_insert_self _ _) hnone hgrant hres

/-! ## What a refilled table has -/

theorem placed_blank (hpos : 0 < n) : (blank n : HashMap β).Placed := placed_empty hpos

theorem Placed.store (hm : m.Placed) (hindex : m.hashmapHash key = some index) :
    (m.store index key value).2.Placed := by
  obtain ⟨-, hfind⟩ := hashmapHash_eq_some hindex
  unfold HashMap.store
  cases hslot : m.elems index with
  | some e => exact hm
  | none => exact hm.fill value hslot (List.mem_of_find?_eq_some hfind)

theorem Placed.refill (hm : m.Placed) (es : List (CStr × β)) : (m.refill es).1.Placed := by
  induction es generalizing m with
  | nil => exact hm
  | cons e es ih =>
    cases hindex : m.hashmapHash e.1 with
    | none => rwa [refill_cons_none hindex]
    | some index =>
      rw [refill_cons_some hindex]
      exact ih (hm.store hindex)

theorem size_store_le : (m.store index key value).2.size ≤ m.size + 1 := by
  unfold store
  split
  · exact Int.le_add_one le_rfl
  · exact le_rfl

/-- Each entry that is put counts once at most. -/
theorem size_refill_le (m : HashMap β) (es : List (CStr × β)) :
    (m.refill es).1.size + (m.refill es).2.length ≤ m.size + es.length := by
  induction es generalizing m with
  | nil => exact le_rfl
  | cons e es ih =>
    cases hindex : m.hashmapHash e.1 with
    | none => rw [refill_cons_none hindex]
    | some index =>
      rw [refill_cons_some hindex, List.length_cons]
      have hrest := ih (m.store index e.1 e.2).2
      have hstore : (m.store index e.1 e.2).2.size ≤ m.size + 1 := size_store_le
      push_cast
      omega

theorem length_coming_le (hm : m.Placed) (i : Nat) :
    (m.coming i).length ≤ (news ∅ m.entries).length := by
  induction i with
  | zero => exact le_rfl
  | succ i ih =>
    have hbefore := (placed_blank (doubled_pos hm.pos i)).refill (m.coming i)
    have hlength := hbefore.length_entries
    have hsize := size_refill_le (blank (m.doubled i)) (m.coming i)
    have hblank : (blank (m.doubled i) : HashMap β).size = 0 := rfl
    rw [coming, List.length_append]
    omega

/-- An entry goes into a blank slot, or its key is there. -/
theorem Placed.store_perm (hm : m.Placed) (hindex : m.hashmapHash key = some index)
    (hnew : key ∉ m.entries.map Prod.fst) :
    (m.store index key value).2.entries.Perm ((key, value) :: m.entries) := by
  obtain ⟨-, hfind⟩ := hashmapHash_eq_some hindex
  have hlt := lt_of_mem_window hm.pos (List.mem_of_find?_eq_some hfind)
  have hblank : m.elems index = none := by
    rcases Slots.stops_iff.mp (List.find?_some hfind) with hblank | ⟨v, hv⟩
    · exact hblank
    · refine absurd (List.mem_map.mpr ⟨(key, v), ?_, rfl⟩) hnew
      exact List.mem_filterMap.mpr ⟨index, List.mem_range.mpr hlt, hv⟩
  obtain ⟨before, after, hrange⟩ := List.append_of_mem (List.mem_range.mpr hlt)
  have hnodup := hrange ▸ List.nodup_range (n := m.table_size)
  have hother : ∀ is : List Nat, index ∉ is →
      is.filterMap (Function.update m.elems index (some (key, value))) = is.filterMap m.elems :=
    fun is his => List.filterMap_congr fun i hi =>
      Function.update_of_ne (ne_of_mem_of_not_mem hi his) _ _
  obtain ⟨-, hrest, hapart⟩ := List.nodup_append.mp hnodup
  have hbefore : index ∉ before := fun hmem => hapart index hmem index List.mem_cons_self rfl
  have hentries : (m.store index key value).2.entries =
      (List.range m.table_size).filterMap (Function.update m.elems index (some (key, value))) := by
    rw [HashMap.store, hblank]
    rfl
  rw [hentries, entries, hrange, List.filterMap_append, List.filterMap_append,
    List.filterMap_cons_some (Function.update_self ..), List.filterMap_cons_none hblank,
    hother before hbefore, hother after (List.nodup_cons.mp hrest).1]
  exact List.perm_middle

/-- The entries of the tables are always the same. -/
theorem Placed.refill_perm (hm : m.Placed) (hnodup : ((m.entries ++ es).map Prod.fst).Nodup) :
    ((m.refill es).1.entries ++ (m.refill es).2).Perm (m.entries ++ es) := by
  induction es generalizing m with
  | nil => exact .refl _
  | cons e es ih =>
    cases hindex : m.hashmapHash e.1 with
    | none => rw [refill_cons_none hindex]
    | some index =>
      have hnew : e.1 ∉ m.entries.map Prod.fst := by
        rw [List.map_append, List.map_cons, List.nodup_append] at hnodup
        exact fun hmem => hnodup.2.2 e.1 hmem e.1 List.mem_cons_self rfl
      have hperm : ((m.store index e.1 e.2).2.entries ++ es).Perm (m.entries ++ e :: es) :=
        ((hm.store_perm hindex hnew).append_right es).trans List.perm_middle.symm
      rw [refill_cons_some hindex]
      exact (ih (hm.store hindex) ((hperm.map Prod.fst).nodup_iff.mpr hnodup)).trans hperm

theorem entries_blank (n : Nat) : (blank n : HashMap β).entries = [] :=
  List.filterMap_eq_nil_iff.mpr fun _ _ => rfl

theorem coming_perm (hm : m.Placed) (hd : m.Distinct) (i : Nat) :
    (m.coming i).Perm m.entries := by
  induction i with
  | zero => rw [coming, news_entries hd]
  | succ i ih =>
    have hnodup : (((blank (m.doubled i)).entries ++ m.coming i).map Prod.fst).Nodup := by
      rw [entries_blank, List.nil_append]
      exact (ih.map Prod.fst).nodup_iff.mpr (nodup_entries hd)
    have hperm := (placed_blank (doubled_pos hm.pos i)).refill_perm hnodup
    rw [entries_blank, List.nil_append] at hperm
    exact hperm.trans ih

/-! ## Coming to an end -/

theorem rehashLoop_isSome {n : Nat} {old : Slots CStr β} {is : List Nat}
    (hput : ∀ m key value, n ≤ m.table_size → ∃ st m', put m key value = some (st, m') ∧
      n ≤ m'.table_size) (hn : n ≤ m.table_size) : (rehashLoop put old is m).isSome := by
  induction is generalizing m with
  | nil => rfl
  | cons i is ih =>
    cases hslot : old i with
    | none =>
      simp only [rehashLoop, hslot]
      exact ih hn
    | some e =>
      obtain ⟨st, m₁, hres, hn₁⟩ := hput m e.1 e.2 hn
      simp only [rehashLoop, hslot, hres]
      cases st with
      | HMAP_S_OK => exact ih hn₁
      | HMAP_E_KEYUSED | HMAP_E_OUTMEM | HMAP_E_NOTFOUND => rfl

/-- Every call doubles the table, and one of `2 ^ 30` slots cannot be doubled. -/
theorem hashmapPut_isSome (hfuel : 2 ^ 30 ≤ m.table_size * 2 ^ fuel) :
    (m.hashmapPut calloc (fuel + 1) key value).isSome := by
  induction fuel generalizing m key value with
  | zero =>
    have hsize : ¬ (2 * m.table_size < 2 ^ 31 ∧ calloc (2 * m.table_size)) := by
      omega
    unfold hashmapPut hashmapRehash
    rw [if_neg hsize]
    split <;> rfl
  | succ fuel ih =>
    have hagain : ∀ (m₁ : HashMap β) key value, 2 * m.table_size ≤ m₁.table_size →
        ∃ st m', m₁.hashmapPut calloc (fuel + 1) key value = some (st, m') ∧
          2 * m.table_size ≤ m'.table_size := by
      intro m₁ key value hle
      have hfuel₁ : 2 ^ 30 ≤ m₁.table_size * 2 ^ fuel :=
        calc 2 ^ 30
          _ ≤ m.table_size * 2 ^ (fuel + 1) := hfuel
          _ = 2 * m.table_size * 2 ^ fuel := by rw [pow_succ', Nat.mul_left_comm, Nat.mul_assoc]
          _ ≤ m₁.table_size * 2 ^ fuel := Nat.mul_le_mul_right _ hle
      obtain ⟨⟨st, m'⟩, hres⟩ := Option.isSome_iff_exists.mp (ih hfuel₁)
      exact ⟨st, m', hres, hashmapPut_grows hle hres⟩
    rw [hashmapPut]
    split
    · rfl
    · have hre : (hashmapRehash calloc (hashmapPut calloc (fuel + 1)) m).isSome := by
        unfold hashmapRehash
        split_ifs
        · exact rehashLoop_isSome hagain le_rfl
        · rfl
      obtain ⟨⟨st₁, m₁⟩, hre⟩ := Option.isSome_iff_exists.mp hre
      rw [hre]
      rcases hashmapRehash_cases hre with ⟨-, hloop⟩ | ⟨-, rfl, -⟩
      · have hle : 2 * m.table_size ≤ m₁.table_size := rehashLoop_grows le_rfl hloop
        obtain ⟨st, m', hres, -⟩ := hagain m₁ key value hle
        cases st₁ <;> simp [hres]
      · rfl

theorem tableSize_limit : TableSize (2 ^ 30) := ⟨22, by decide⟩

theorem hashmapPut_le (hsize : TableSize m.table_size) (hle : m.table_size ≤ 2 ^ 30)
    (hres : m.hashmapPut calloc fuel key value = some (st, m')) : m'.table_size ≤ 2 ^ 30 := by
  refine (hashmapPut_keeps (Q := fun _ => True)
    (P := fun m => TableSize m.table_size ∧ m.table_size ≤ 2 ^ 30) ?_ ?_ ?_ trivial
    ⟨hsize, hle⟩ hres).2
  · intro _ _ _ _ _ _
    trivial
  · intro m key value index _ hm _
    unfold store
    split <;> exact hm
  · intro m hm hgrant
    have hlt : m.table_size < 2 ^ 30 := by
      have := hgrant.1
      omega
    exact ⟨hm.1.double, hm.1.double_le tableSize_limit hlt⟩

theorem le_reach (h : history.Reach m) : m.table_size ≤ 2 ^ 30 := by
  refine (LTS.Reach.invariant (T := history)
    (I := fun m : HashMap β => m.Sound ∧ m.table_size ≤ 2 ^ 30) ?_ ?_ h).2
  · intro m hm
    obtain rfl : m = hashmapCreate := hm
    exact ⟨sound_empty ⟨0, rfl⟩, (by decide : HMAP_INITIAL_SIZE ≤ 2 ^ 30)⟩
  · intro m a m' hm hstep
    refine ⟨hm.1.step hstep, ?_⟩
    obtain ⟨calloc, call⟩ := a
    cases call with
    | put key value =>
      obtain ⟨fuel, st, hres⟩ := hstep
      exact hashmapPut_le hm.1.doubled hm.2 hres
    | remove key =>
      obtain rfl : m' = (m.hashmapRemove key).2 := hstep
      unfold hashmapRemove
      split <;> exact hm.2
    | get | size =>
      obtain rfl : m' = m := hstep
      exact hm.2

/-- With memory for every size, `hashmap_put` comes to an end, and `2 * table_size` has not
overflowed. -/
def Settles (m : HashMap β) (key : CStr) (value : β) : Prop :=
  ∃ fuel st m', m.hashmapPut (fun _ => true) fuel key value = some (st, m') ∧
    st ≠ .HMAP_E_OUTMEM ∧ m'.table_size ≤ 2 ^ 30

/-- **When insertion comes to an end.** -/
theorem settles_iff (h : history.Reach m) :
    m.Settles key value ↔ m.hashmapHash key ≠ none ∨
      ∃ j, m.doubled j ≤ 2 ^ 30 ∧ Fits (m.doubled j) (m.coming j ++ [(key, value)]) := by
  have hm := sound_reach h
  constructor
  · intro hsettles
    obtain ⟨fuel, st, m', hres, hst, hle⟩ := hsettles
    by_cases hnone : m.hashmapHash key = none
    · right
      by_cases hgrant : Granted (fun _ => true) (2 * m.table_size)
      · have hclimbs := hm.climbs hnone hgrant hres
        rw [decide_eq_true hst] at hclimbs
        obtain ⟨j, hfits, hsize⟩ := hclimbs.levels rfl rfl
        exact ⟨j, hsize ▸ hle, hfits⟩
      · exact absurd (hashmapPut_not_granted hnone hgrant hres).1 hst
    · exact .inl hnone
  · intro hfits
    have hfuel : 2 ^ 30 ≤ m.table_size * 2 ^ 30 := Nat.le_mul_of_pos_left _ hm.pos
    have htotal : (m.hashmapPut (fun _ => true) (30 + 1) key value).isSome :=
      hashmapPut_isSome hfuel
    obtain ⟨⟨st, m'⟩, hres⟩ := Option.isSome_iff_exists.mp htotal
    refine ⟨31, st, m', hres, ?_, hashmapPut_le hm.doubled (le_reach h) hres⟩
    rintro rfl
    have hnone := hashmapHash_of_outmem hres
    obtain ⟨j, hle, hfits⟩ := hfits.resolve_left (not_not_intro hnone)
    have hgrant : Granted (fun _ => true) (2 * m.table_size) := by
      have hzero : m.doubled 0 ≤ m.doubled j := (doubled_le_iff hm.pos).mpr (Nat.zero_le j)
      rw [doubled_zero] at hzero
      exact ⟨by omega, rfl⟩
    obtain ⟨j', hnot, -, -, hrefused⟩ := (hm.climbs hnone hgrant hres).levels rfl rfl
    -- the climb went past the size at which the entries fit
    have hlast : m.doubled j ≤ m.doubled j' := by
      simp only [Granted, and_true, not_lt, doubled_succ] at hrefused
      omega
    exact hnot j (Nat.zero_le j) ((doubled_le_iff hm.pos).mp hlast) hfits

/-- If there is no slot for a key, it is crowded. -/
theorem Fresh.crowded (hm : m.Fresh K) (hnone : m.hashmapHash key = none) :
    Crowded K m.table_size key := by
  obtain ⟨g, hg, hK⟩ := hm.holds
  have hfull : ¬ m.halfFull := by
    have hcard : g.keys.card ≤ K.card := Finset.card_le_card hK
    have hroom := hm.room
    have hsize := hg.size
    unfold halfFull
    omega
  rw [hashmapHash, if_neg hfull, List.find?_eq_none] at hnone
  have hslot : ∀ i ∈ window m.table_size key, ∃ k v, m.elems i = some (k, v) ∧ k ≠ key := by
    intro i hi
    have hstop := hnone i hi
    rw [Slots.stops_iff, not_or] at hstop
    obtain ⟨e, he⟩ := Option.ne_none_iff_exists'.mp hstop.1
    refine ⟨e.1, e.2, he, ?_⟩
    intro hkey
    exact hstop.2 ⟨e.2, by rw [he, ← hkey]⟩
  -- each slot of the window is taken by the key that is in it
  choose! sitting value hsit using hslot
  refine ⟨sitting, ?_, ?_⟩
  · intro i hi j hj hij
    have hi' := (hsit i hi).1
    rw [hij] at hi'
    exact hg.slots.unique i j _ _ _ hi' (hsit j hj).1
  · intro i hi
    obtain ⟨helem, hne⟩ := hsit i hi
    exact ⟨hm.key_mem i _ _ helem, hne, hg.slots.inWindow i _ _ helem⟩

/-- Where no key is crowded, the order does not matter. -/
theorem fits_of_spread (hspread : ∀ k ∈ K, ¬ Crowded K n k) (hsize : TableSize n)
    (hroom : K.card < n / 2) (hes : ∀ e ∈ es, e.1 ∈ K) : Fits n es := by
  suffices hall : ∀ t : HashMap β, t.Fresh K → t.table_size = n → (t.refill es).2 = [] from
    hall (blank n) (fresh_blank hsize hroom) rfl
  induction es with
  | nil => exact fun _ _ _ => rfl
  | cons e es ih =>
    intro t ht hn
    have hkey := hes e List.mem_cons_self
    cases hindex : t.hashmapHash e.1 with
    | none => exact absurd (hn ▸ ht.crowded hindex) (hspread e.1 hkey)
    | some index =>
      rw [refill_cons_some hindex]
      exact ih (fun e' he' => hes e' (List.mem_cons_of_mem e he')) _ (ht.store hkey hindex)
        (table_size_store.trans hn)

theorem fits_coming_of_spread (hm : m.Sound) (hd : m.Distinct)
    (hspread : ∀ k ∈ insert key m.keys, ¬ Crowded (insert key m.keys) (m.doubled j) k) :
    Fits (m.doubled j) (m.coming j ++ [(key, value)]) := by
  have hdoubling : Doubling (insert key m.keys) m :=
    hm.doubling subset_rfl (Finset.subset_insert _ _)
  have hle : 2 * m.table_size ≤ m.doubled j := by
    rw [← doubled_zero]
    exact (doubled_le_iff hm.pos).mpr (Nat.zero_le j)
  have hsize : TableSize (m.doubled j) := by
    obtain ⟨k, hk⟩ := hm.doubled
    exact ⟨k + (j + 1), by rw [HashMap.doubled, hk, pow_add 2 k, Nat.mul_assoc]⟩
  have hroom := hdoubling.room
  refine fits_of_spread hspread hsize (by omega) ?_
  intro e he
  rcases List.mem_append.mp he with he | he
  · obtain ⟨i, -, hi⟩ := List.mem_filterMap.mp ((coming_perm hm.toPlaced hd j).mem_iff.mp he)
    exact Finset.mem_insert_of_mem (hm.mem_keys.mpr ⟨i, e.2, hi⟩)
  · rw [List.mem_singleton.mp he]
    exact Finset.mem_insert_self _ _

/-- Where a new key is put, all the keys fit into a table. -/
theorem fits_of_settles (h : history.Reach m) (hd : m.Distinct) (hkey : key ∉ m.keys)
    (hsettles : m.Settles key value) :
    ∃ N, TableSize N ∧ N ≤ 2 ^ 30 ∧ ∃ slot : CStr → Nat, Set.InjOn slot ↑(insert key m.keys) ∧
      ∀ k ∈ insert key m.keys, slot k ∈ window N k := by
  obtain ⟨fuel, st, m', hres, hst, hle⟩ := hsettles
  have hm := sound_reach h
  obtain ⟨f, hf⟩ := exists_holds hm.toPlaced hd
  have habsent : f.lookup key = none := by
    rw [Option.eq_none_iff_forall_not_mem]
    intro v hv
    exact hkey (hm.mem_keys.mpr ((hf.slots.lookup key v).mp hv |>.imp fun i hi => ⟨v, hi⟩))
  obtain ⟨-, hf', -⟩ := hashmapPut_spec.absent hf habsent hres hst
  have hslot : ∀ k ∈ insert key m.keys, ∃ i v, m'.elems i = some (k, v) := by
    intro k hk
    have hsome : ∃ v, (f.insert key value).lookup k = some v := by
      by_cases hk' : k = key
      · exact ⟨value, by rw [hk', Finmap.lookup_insert]⟩
      · obtain ⟨i, v, hi⟩ := hm.mem_keys.mp ((Finset.mem_insert.mp hk).resolve_left hk')
        exact ⟨v, by rw [Finmap.lookup_insert_of_ne _ hk', hf.slots.lookup]; exact ⟨i, hi⟩⟩
    obtain ⟨v, hv⟩ := hsome
    obtain ⟨i, hi⟩ := (hf'.slots.lookup k v).mp hv
    exact ⟨i, v, hi⟩
  choose! slot v hv using hslot
  refine ⟨m'.table_size, (hm.hashmapPut hres).doubled, hle, slot, ?_, ?_⟩
  · intro k hk k' hk' heq
    have hk := hv k hk
    rw [heq, hv k' hk', Option.some_inj] at hk
    exact (congrArg Prod.fst hk).symm
  · intro k hk
    exact hf'.slots.inWindow _ _ _ (hv k hk)

/-- Nine keys with the same CRC. -/
def sameCrc : List CStr :=
  [[1, 153, 181, 2, 91], [2, 35, 228, 11, 194], [3, 181, 212, 12, 181], [4, 22, 65, 104, 43],
   [5, 128, 113, 111, 92], [6, 58, 32, 102, 197], [7, 172, 16, 97, 178], [8, 61, 13, 222, 34],
   [9, 171, 61, 217, 85]]

theorem sameCrc_window {k : CStr} (hk : k ∈ sameCrc) (n : Nat) :
    window n k = window n [1, 153, 181, 2, 91] := by
  have hcrc : ∀ k ∈ sameCrc, crc32 k = crc32 [1, 153, 181, 2, 91] := by decide +kernel
  rw [window, window, findHashIndex, findHashIndex, hcrc k hk]

/-- The first eight of them. -/
def sampleEight : HashMap Nat := hashmapCreate.fill ((sameCrc.take 8).map fun k => (k, 1))

theorem sampleEight_distinct : sampleEight.Distinct := by
  obtain ⟨f, hf⟩ : ∃ f, sampleEight.Holds f := fill_holds (holds_empty (by decide)) packed_empty
  exact hf.slots.unique

/-- The ninth key is put in vain, whatever the size of the table. -/
theorem not_settles :
    ∃ (m : HashMap Nat) (key : CStr) (value : Nat), history.Reach m ∧ ¬ m.Settles key value := by
  have hreach : history.Reach sampleEight := fill_reach (.init rfl)
  refine ⟨sampleEight, [9, 171, 61, 217, 85], 2, hreach, ?_⟩
  intro hsettles
  have hall : ∀ k ∈ sameCrc, k ∈ insert [9, 171, 61, 217, 85] sampleEight.keys := by
    decide +kernel
  obtain ⟨N, -, -, slot, hinj, hslot⟩ :=
    fits_of_settles hreach sampleEight_distinct (by decide +kernel) hsettles
  have hcard : sameCrc.toFinset.card ≤ (window N [1, 153, 181, 2, 91]).toFinset.card := by
    refine Finset.card_le_card_of_injOn slot ?_ ?_
    · intro k hk
      have hk : k ∈ sameCrc := by simpa using hk
      have hmem := hslot k (hall k hk)
      rw [sameCrc_window hk] at hmem
      simpa using hmem
    · intro k hk k' hk' heq
      exact hinj (hall k (by simpa using hk)) (hall k' (by simpa using hk')) heq
  have hwindow : (window N [1, 153, 181, 2, 91]).toFinset.card ≤ 8 := List.toFinset_card_le _
  exact absurd (hcard.trans hwindow) (by decide)

/-- Nine keys with index 249 of a table of 512 slots, and one for each index up to 255. -/
def sampleKeys : List CStr × List CStr :=
  ([[97, 97, 116], [97, 112, 111], [98, 104, 110], [99, 106, 112], [99, 115, 101], [100, 105, 108],
    [100, 118, 109], [101, 120, 118]],
   [[97, 111, 121], [97, 113, 101], [98, 116, 114], [99, 111, 111], [98, 120, 105], [97, 118, 100]])

def sampleNext : CStr := [102, 112, 107]

/-- A table in which eight keys reach around the end, and six more come after them. -/
def sampleWrapped : HashMap Nat :=
  hashmapCreate.fill ((sampleKeys.1 ++ sampleKeys.2).map fun k => (k, 1))

theorem sampleWrapped_distinct : sampleWrapped.Distinct := by
  obtain ⟨f, hf⟩ : ∃ f, sampleWrapped.Holds f := fill_holds (holds_empty (by decide)) packed_empty
  exact hf.slots.unique

/-- The keys do not fit into 512 slots, but into 2 ^ 30, as none has eight others around it. -/
theorem settles_iff_sampleWrapped :
    ¬ Fits 512 (sampleWrapped.coming 0 ++ [(sampleNext, 2)]) ∧
      sampleWrapped.Settles sampleNext 2 := by
  refine ⟨by decide +kernel, (settles_iff (fill_reach (.init rfl))).mpr (.inr ⟨21, ?_, ?_⟩)⟩
  · decide +kernel
  · have hsound : sampleWrapped.Sound := sound_reach (fill_reach (.init rfl))
    refine fits_coming_of_spread (m := sampleWrapped) hsound sampleWrapped_distinct ?_
    have hsize : sampleWrapped.doubled 21 = 2 ^ 30 := by decide +kernel
    intro k hk hcrowd
    have hfew : ∀ k ∈ insert sampleNext sampleWrapped.keys,
        (around (insert sampleNext sampleWrapped.keys) (2 ^ 30) k).card < 8 := by
      decide +kernel
    rw [hsize] at hcrowd
    exact absurd (hcrowd.card_le (by decide)) (hfew k hk).not_ge

/-! ## Running out of memory -/

/-- The memory lasts for `j + 1` doublings, and no more. -/
structure LastDoubling (calloc : Nat → Bool) (m : HashMap β) (j : Nat) : Prop where
  granted : ∀ i ≤ j, Granted calloc (m.doubled i)
  refused : ¬ Granted calloc (m.doubled (j + 1))

theorem LastDoubling.unique (hi : LastDoubling calloc m i) (hj : LastDoubling calloc m j) :
    i = j := by
  rcases Nat.lt_trichotomy i j with hlt | heq | hgt
  · exact absurd (hj.granted (i + 1) hlt) hi.refused
  · exact heq
  · exact absurd (hi.granted (j + 1) hgt) hj.refused

/-- Tables with the same entries answer the same. -/
theorem same_of_perm (hf : m.Holds f) (hf' : m'.Holds f') (hperm : m'.entries.Perm m.entries) :
    (∀ k, m'.hashmapGet k = m.hashmapGet k) ∧ m'.hashmapSize = m.hashmapSize := by
  have hentries := Multiset.coe_eq_coe.mpr hperm
  rw [hf.entries_eq, hf'.entries_eq] at hentries
  have hinj : Function.Injective fun e : (_ : CStr) × β => (e.1, e.2) := by
    rintro ⟨k, v⟩ ⟨k', v'⟩ heq
    cases heq
    rfl
  have hsame : f' = f := Finmap.ext (Multiset.map_injective hinj hentries)
  refine ⟨fun k => ?_, ?_⟩
  · rw [hashmapGet_eq hf, hashmapGet_eq hf', hsame]
  · rw [hashmapSize, hashmapSize, hf.size, hf'.size, hsame]

/-- **When failed insertion is atomic.** A `hashmap_put` that is out of memory leaves every key as
it was, the new one among them, and the size. -/
theorem atomic_iff (h : history.Reach m)
    (hres : m.hashmapPut calloc fuel key value = some (.HMAP_E_OUTMEM, m')) :
    (∀ k, m'.hashmapGet k = m.hashmapGet k) ∧ m'.hashmapSize = m.hashmapSize ↔
      (Granted calloc (2 * m.table_size) → m.Distinct ∧
        ∀ j, LastDoubling calloc m j → Fits (m.doubled j) (m.coming j)) := by
  have hm := sound_reach h
  have hnone := hashmapHash_of_outmem hres
  by_cases hgrant : Granted calloc (2 * m.table_size)
  · obtain ⟨j, -, htable, hgranted, hrefused⟩ := (hm.climbs hnone hgrant hres).levels rfl rfl
    have hlast : LastDoubling calloc m j := by
      refine ⟨?_, hrefused⟩
      intro i hij
      rcases i.eq_zero_or_pos with rfl | hi
      · rwa [doubled_zero]
      · exact hgranted i hi hij
    constructor
    · intro hsame _
      have hkept : m'.size = m.size := hsame.2
      have hentries := hm.length_entries
      have hnews := (news_isInitial ∅ m.entries).length_le
      have hcoming := length_coming_le hm.toPlaced j
      have hput := size_refill_le (blank (m.doubled j)) (m.coming j)
      have hblank : (blank (m.doubled j) : HashMap β).size = 0 := rfl
      rw [← htable] at hput
      -- nothing is left out, or the size would be smaller
      have hall : news ∅ m.entries = m.entries :=
        (news_isInitial ∅ m.entries).eq_of_length (by omega)
      have hnodup := (nodup_news ∅ m.entries).1
      rw [hall] at hnodup
      refine ⟨hm.distinct_of_nodup hnodup, ?_⟩
      intro j' hlast'
      obtain rfl := hlast.unique hlast'
      exact List.length_eq_zero_iff.mp (by omega)
    · intro hfits
      obtain ⟨hd, hfits⟩ := hfits hgrant
      have hentries : m'.entries.Perm m.entries := by
        have hnext := coming_perm hm.toPlaced hd (j + 1)
        rwa [coming, hfits j hlast, ← htable, List.append_nil] at hnext
      have hm' := hm.hashmapPut hres
      obtain ⟨f, hf⟩ := exists_holds hm.toPlaced hd
      obtain ⟨f', hf'⟩ := exists_holds hm'.toPlaced (hm'.distinct_of_nodup
        ((hentries.map Prod.fst).nodup_iff.mpr (nodup_entries hd)))
      exact same_of_perm hf hf' hentries
  · obtain ⟨-, rfl⟩ := hashmapPut_not_granted hnone hgrant hres
    exact iff_of_true ⟨fun _ => rfl, rfl⟩ fun hgrant' => absurd hgrant' hgrant

/-- The table is doubled, a key is put again in vain, and the keys after it are lost. -/
theorem not_atomic :
    ∃ (m m' : HashMap Nat) (calloc : Nat → Bool) (fuel : Nat) (key : CStr) (value : Nat) (k : CStr),
      history.Reach m ∧ m.hashmapPut calloc fuel key value = some (.HMAP_E_OUTMEM, m') ∧
        m.hashmapGet k = (.HMAP_S_OK, some 1) ∧ m'.hashmapGet k = (.HMAP_E_NOTFOUND, none) := by
  have hreach : history.Reach sampleWrapped := fill_reach (.init rfl)
  have hout : (sampleWrapped.hashmapPut (fun n => n ≤ 512) 2 sampleNext 2).map
      (fun r => (r.1, r.2.hashmapGet [98, 104, 110])) =
        some (.HMAP_E_OUTMEM, .HMAP_E_NOTFOUND, none) := by
    decide +kernel
  obtain ⟨⟨st, m'⟩, hres, hget⟩ := Option.map_eq_some_iff.mp hout
  simp only [Prod.mk.injEq] at hget
  obtain ⟨rfl, hget⟩ := hget
  exact ⟨sampleWrapped, m', fun n => n ≤ 512, 2, sampleNext, 2, [98, 104, 110], hreach, hres,
    by decide +kernel, hget⟩

/-- Eight keys with index 0 of a table of 512 slots, and one for each index up to 6. -/
def sampleClose : HashMap Nat :=
  hashmapCreate.fill (([[97, 103, 103], [97, 111, 113], [97, 116, 115], [98, 109, 97],
    [99, 100, 110], [100, 103, 112], [100, 104, 100], [101, 104, 114], [97, 107, 117],
    [98, 104, 97], [97, 101, 114], [97, 108, 107], [98, 97, 104],
    [98, 99, 97]] : List CStr).map fun k => (k, 1))

/-- The table is doubled once, where they all fit, and there is no memory for a second time. -/
theorem atomic_iff_sampleClose :
    ∃ m', sampleClose.hashmapPut (fun n => n ≤ 512) 2 [101, 106, 112] 2 =
        some (.HMAP_E_OUTMEM, m') ∧ m'.table_size = 512 ∧
      (∀ k, m'.hashmapGet k = sampleClose.hashmapGet k) ∧
        m'.hashmapSize = sampleClose.hashmapSize := by
  have hout : (sampleClose.hashmapPut (fun n => n ≤ 512) 2 [101, 106, 112] 2).map
      (fun r => (r.1, r.2.table_size)) = some (.HMAP_E_OUTMEM, 512) := by
    decide +kernel
  obtain ⟨⟨st, m'⟩, hres, hpair⟩ := Option.map_eq_some_iff.mp hout
  simp only [Prod.mk.injEq] at hpair
  obtain ⟨rfl, hsize⟩ := hpair
  have hdistinct : sampleClose.Distinct := by
    obtain ⟨f, hf⟩ : ∃ f, sampleClose.Holds f := fill_holds (holds_empty (by decide)) packed_empty
    exact hf.slots.unique
  refine ⟨m', hres, hsize, (atomic_iff (fill_reach (.init rfl)) hres).mpr fun _ => ⟨hdistinct, ?_⟩⟩
  intro j hlast
  cases j with
  | zero =>
    have hfits : Fits (sampleClose.doubled 0) (sampleClose.coming 0) := by decide +kernel
    exact hfits
  | succ j =>
    have hgrant : ¬ Granted (fun n => n ≤ 512) (sampleClose.doubled 1) := by decide +kernel
    exact absurd (hlast.granted 1 (Nat.succ_le_succ (Nat.zero_le j))) hgrant

end HashMap

end DevTools.Daemon
