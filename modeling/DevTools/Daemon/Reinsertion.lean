import DevTools.Daemon.Representation

/-!
# Putting everything again

A doubled table is filled with the entries of the old one, slot by slot. Each of these
`hashmap_put` may find no slot, and doubles the table in the midst of it; the calls are nested as
deep as it takes.

Seen from the table the entries simply come one after the other. When one finds no slot, all of them
come again to a table of twice the size: first those that sit in the old one, in the order of their
slots, then the one that found none, then those that were still to come. `Climbs` says so.

**Theorem (`Doubling.climbs`).** This is what `hashmap_put` does, when there is memory for the first
doubling. An entry whose key has come before ends the loop over the old slots (`news`).

All tables in between are `Fresh`: only what has been put again is in them, so no key is in two
slots and none is shadowed.
-/

namespace DevTools.Daemon

/-! ## Table sizes -/

def TableSize (n : Nat) : Prop := ∃ k, n = HMAP_INITIAL_SIZE * 2 ^ k

theorem TableSize.double {n : Nat} (hn : TableSize n) : TableSize (2 * n) := by
  obtain ⟨k, rfl⟩ := hn
  exact ⟨k + 1, by rw [pow_succ', Nat.mul_left_comm]⟩

theorem TableSize.le {n : Nat} (hn : TableSize n) : 256 ≤ n := by
  obtain ⟨k, rfl⟩ := hn
  exact Nat.le_mul_of_pos_right _ k.two_pow_pos

/-- The next table size is twice as much. -/
theorem TableSize.double_le {n N : Nat} (hn : TableSize n) (hN : TableSize N) (h : n < N) :
    2 * n ≤ N := by
  obtain ⟨a, rfl⟩ := hn
  obtain ⟨b, rfl⟩ := hN
  have hpow : 2 ^ a < 2 ^ b := Nat.lt_of_mul_lt_mul_left h
  have hlt : a < b := (Nat.pow_lt_pow_iff_right (by decide)).mp hpow
  calc 2 * (HMAP_INITIAL_SIZE * 2 ^ a)
    _ = HMAP_INITIAL_SIZE * 2 ^ (a + 1) := by rw [pow_succ', Nat.mul_left_comm]
    _ ≤ HMAP_INITIAL_SIZE * 2 ^ b := Nat.mul_le_mul_left _ (Nat.pow_le_pow_right (by decide) hlt)

namespace HashMap

variable {β : Type} {m m' t t' t'' : HashMap β} {f g : Contents β} {key : CStr} {value v : β}
  {st : Status} {calloc : Nat → Bool} {fuel index : Nat} {K : Finset CStr} {e e' : CStr × β}
  {es es' rest : List (CStr × β)} {ok : Bool}

/-! ## Entries -/

/-- A table of `n` blank slots. -/
def blank (n : Nat) : HashMap β := ⟨n, 0, fun _ => none⟩

/-- The entries before the first whose key has been seen. -/
def news : Finset CStr → List (CStr × β) → List (CStr × β)
  | _, [] => []
  | seen, e :: es => if e.1 ∈ seen then [] else e :: news (insert e.1 seen) es

theorem Placed.length_entries (hm : m.Placed) : (m.entries.length : Int) = m.size := by
  have hused : m.used.card =
      ((List.range m.table_size).filter fun i => (m.elems i).isSome).length :=
    congrArg List.length (List.filter_congr fun i _ => by simp)
  rw [hm.size, entries, List.length_filterMap_eq_countP, List.countP_eq_length_filter, hused]

theorem nodup_entries (hd : m.Distinct) : (m.entries.map Prod.fst).Nodup := by
  rw [List.Nodup, List.pairwise_map, entries, List.pairwise_filterMap]
  refine List.nodup_range.imp ?_
  intro i j hij a ha b hb hab
  exact hij (hd i j a.1 a.2 b.2 ha (hab ▸ hb))

theorem Placed.distinct_of_nodup (hm : m.Placed) (h : (m.entries.map Prod.fst).Nodup) :
    m.Distinct := by
  rw [List.Nodup, List.pairwise_map, entries, List.pairwise_filterMap] at h
  have hlt : ∀ i j key v v', i < j → m.elems i = some (key, v) → m.elems j ≠ some (key, v') := by
    intro i j key v v' hij hi hj
    have hpair := List.pairwise_iff_getElem.mp h i j (by simpa using hm.lt hi)
      (by simpa using hm.lt hj) hij
    simp only [List.getElem_range] at hpair
    exact hpair _ hi _ hj rfl
  intro i j key v v' hi hj
  rcases Nat.lt_trichotomy i j with hij | rfl | hji
  · exact absurd hj (hlt i j key v v' hij hi)
  · rfl
  · exact absurd hi (hlt j i key v' v hji hj)

theorem news_isInitial (seen : Finset CStr) (es : List (CStr × β)) : news seen es <+: es := by
  induction es generalizing seen with
  | nil => exact List.nil_prefix
  | cons e es ih =>
    rw [news]
    split_ifs
    · exact List.nil_prefix
    · exact (List.prefix_cons_inj e).mpr (ih _)

theorem nodup_news (seen : Finset CStr) (es : List (CStr × β)) :
    ((news seen es).map Prod.fst).Nodup ∧ ∀ e ∈ news seen es, e.1 ∉ seen := by
  induction es generalizing seen with
  | nil => exact ⟨List.nodup_nil, fun e he => absurd he List.not_mem_nil⟩
  | cons e es ih =>
    rw [news]
    split_ifs with hseen
    · exact ⟨List.nodup_nil, fun e he => absurd he List.not_mem_nil⟩
    · obtain ⟨hnodup, hnew⟩ := ih (insert e.1 seen)
      refine ⟨?_, ?_⟩
      · rw [List.map_cons, List.nodup_cons, List.mem_map]
        refine ⟨?_, hnodup⟩
        intro hmem
        obtain ⟨e', he', hkey⟩ := hmem
        exact hnew e' he' (hkey ▸ Finset.mem_insert_self _ _)
      · intro e' he'
        rcases List.mem_cons.mp he' with rfl | he'
        · exact hseen
        · exact fun h => hnew e' he' (Finset.mem_insert_of_mem h)

/-- Nothing is left out where all keys differ. -/
theorem news_eq_self (hnodup : (es.map Prod.fst).Nodup) {seen : Finset CStr}
    (hnew : ∀ e ∈ es, e.1 ∉ seen) : news seen es = es := by
  induction es generalizing seen with
  | nil => rfl
  | cons e es ih =>
    rw [List.map_cons, List.nodup_cons, List.mem_map] at hnodup
    rw [news, if_neg (hnew e List.mem_cons_self), ih hnodup.2]
    intro e' he' hmem
    rcases Finset.mem_insert.mp hmem with heq | hseen
    · exact hnodup.1 ⟨e', he', heq⟩
    · exact hnew e' (List.mem_cons_of_mem e he') hseen

theorem news_entries (hd : m.Distinct) : news ∅ m.entries = m.entries :=
  news_eq_self (nodup_entries hd) fun _ _ => Finset.notMem_empty _

/-! ## One entry after the other -/

/-- The entries are put until one finds no slot: the table, and that entry with those after it. -/
def refill (m : HashMap β) : List (CStr × β) → HashMap β × List (CStr × β)
  | [] => (m, [])
  | e :: es => match m.hashmapHash e.1 with
    | some index => refill (m.store index e.1 e.2).2 es
    | none => (m, e :: es)

theorem refill_cons_some (hindex : m.hashmapHash e.1 = some index) :
    m.refill (e :: es) = (m.store index e.1 e.2).2.refill es := by
  rw [refill, hindex]

theorem refill_cons_none (hnone : m.hashmapHash e.1 = none) :
    m.refill (e :: es) = (m, e :: es) := by
  rw [refill, hnone]

theorem refill_append (h : m.refill es = (m', [])) : m.refill (es ++ es') = m'.refill es' := by
  induction es generalizing m with
  | nil =>
    cases h
    rfl
  | cons e es ih =>
    cases hindex : m.hashmapHash e.1 with
    | none =>
      rw [refill_cons_none hindex] at h
      cases h
    | some index =>
      rw [refill_cons_some hindex] at h
      rw [List.cons_append, refill_cons_some hindex, ih h]

/-- Once an entry has found no slot, nothing more is put. -/
theorem refill_append_cons (h : m.refill es = (m', e :: rest)) (es' : List (CStr × β)) :
    m.refill (es ++ es') = (m', e :: (rest ++ es')) := by
  induction es generalizing m with
  | nil => cases h
  | cons e₀ es ih =>
    cases hindex : m.hashmapHash e₀.1 with
    | none =>
      rw [refill_cons_none hindex] at h
      cases h
      rw [List.cons_append, refill_cons_none hindex]
    | some index =>
      rw [refill_cons_some hindex] at h
      rw [List.cons_append, refill_cons_some hindex, ih h]

/-- If one of the entries finds no slot, the last one does not matter. -/
theorem refill_concat (h : m.refill (es ++ [e]) = (m', e' :: rest)) :
    ∃ left, m.refill es = (m', left) ∧ left ++ [e] = e' :: rest := by
  cases hes : m.refill es with
  | mk t left =>
    cases left with
    | nil =>
      rw [refill_append hes] at h
      cases hindex : t.hashmapHash e.1 with
      | none =>
        rw [refill_cons_none hindex] at h
        cases h
        exact ⟨[], rfl, rfl⟩
      | some index =>
        rw [refill_cons_some hindex] at h
        cases h
    | cons e₀ left =>
      rw [refill_append_cons hes] at h
      cases h
      exact ⟨_, rfl, rfl⟩

theorem table_size_store : (m.store index key value).2.table_size = m.table_size := by
  unfold store
  split <;> rfl

theorem table_size_refill (m : HashMap β) (es : List (CStr × β)) :
    (m.refill es).1.table_size = m.table_size := by
  induction es generalizing m with
  | nil => rfl
  | cons e es ih =>
    cases hindex : m.hashmapHash e.1 with
    | none => rw [refill_cons_none hindex]
    | some index => rw [refill_cons_some hindex, ih, table_size_store]

/-! ## Tables that are filled again -/

/-- A doubled table into which keys of `K` are put again. -/
structure Fresh (K : Finset CStr) (m : HashMap β) : Prop where
  tableSize : TableSize m.table_size
  room : K.card < m.table_size / 2
  packed : m.Packed
  holds : ∃ g, m.Holds g ∧ g.keys ⊆ K

theorem fresh_blank {n : Nat} (hn : TableSize n) (hroom : K.card < n / 2) :
    Fresh K (blank n : HashMap β) := by
  have hpos : 0 < n := lt_of_lt_of_le (by decide) hn.le
  exact ⟨hn, hroom, packed_empty, ∅, holds_empty hpos, by simp⟩

theorem Fresh.distinct (hm : m.Fresh K) : m.Distinct := by
  obtain ⟨g, hg, -⟩ := hm.holds
  exact hg.slots.unique

theorem Fresh.key_mem (hm : m.Fresh K) (i : Nat) (key : CStr) (value : β)
    (hslot : m.elems i = some (key, value)) : key ∈ K := by
  obtain ⟨g, hg, hK⟩ := hm.holds
  have hkey := (hg.slots.lookup key value).mpr ⟨i, hslot⟩
  exact hK (Finmap.mem_keys.mpr (Finmap.mem_of_lookup_eq_some hkey))

theorem Fresh.not_halfFull (hm : m.Fresh K) : ¬ m.halfFull := by
  obtain ⟨g, hg, hK⟩ := hm.holds
  have hcard : g.keys.card ≤ K.card := Finset.card_le_card hK
  have hroom := hm.room
  have hsize := hg.size
  unfold halfFull
  omega

theorem Fresh.store (hm : m.Fresh K) (hkey : key ∈ K)
    (hindex : m.hashmapHash key = some index) : (m.store index key value).2.Fresh K := by
  obtain ⟨g, hg, hK⟩ := hm.holds
  have hstore : m.store index key value = ((m.store index key value).1, _) := rfl
  cases hlookup : g.lookup key with
  | none =>
    obtain ⟨-, hg', hkeep⟩ := store_absent hg hlookup hindex hstore
    have hsize : (m.store index key value).2.table_size = m.table_size := table_size_store
    refine ⟨hsize ▸ hm.tableSize, hsize ▸ hm.room, hkeep hm.packed, _, hg', ?_⟩
    rw [keys_insert]
    exact Finset.insert_subset hkey hK
  | some v =>
    have hused := store_present hg hlookup (fun hhid => hm.packed _ hhid.2) hindex hstore
    rwa [store_keyused hused.1]

/-- A key that is there is found. -/
theorem Fresh.put_present (hm : m.Fresh K) (hg : m.Holds g) (hkey : key ∈ g.keys)
    (hres : m.hashmapPut calloc fuel key value = some (st, m')) :
    st = .HMAP_E_KEYUSED ∧ m' = m := by
  obtain ⟨v, hv⟩ := Finmap.mem_iff.mp (Finmap.mem_keys.mp hkey)
  obtain ⟨i, hi, hslot⟩ := hg.slots.stops_of_present hv (hm.packed key)
  have hindex : m.hashmapHash key = some i := by rw [hashmapHash, if_neg hm.not_halfFull, hi]
  have hstore : m.store i key value = (.HMAP_E_KEYUSED, m) := by rw [HashMap.store, hslot]
  cases fuel with
  | zero =>
    rw [hashmapPut, hindex, Option.map_some, hstore] at hres
    cases hres
    exact ⟨rfl, rfl⟩
  | succ fuel =>
    simp only [hashmapPut, hindex, hstore] at hres
    cases hres
    exact ⟨rfl, rfl⟩

/-- What is known of a table in which there was no slot, and of the keys that are put again. -/
structure Doubling (K : Finset CStr) (m : HashMap β) : Prop where
  tableSize : TableSize m.table_size
  room : K.card < m.table_size
  key_mem : ∀ i key value, m.elems i = some (key, value) → key ∈ K

theorem Fresh.doubling (hm : m.Fresh K) : Doubling K m :=
  ⟨hm.tableSize, lt_of_lt_of_le hm.room (Nat.div_le_self _ _), hm.key_mem⟩

theorem Doubling.fresh (hm : Doubling K m) : Fresh K (blank (2 * m.table_size) : HashMap β) := by
  have hroom := hm.room
  exact fresh_blank hm.tableSize.double (by omega)

theorem Fresh.hashmapPut (hm : m.Fresh K) (hkey : key ∈ K)
    (hres : m.hashmapPut calloc fuel key value = some (st, m')) : m'.Fresh K := by
  refine hashmapPut_keeps (Q := fun key => key ∈ K) ?_ ?_ ?_ hkey hm hres
  · intro m hm
    exact hm.key_mem
  · intro m key value index hkey hm hindex
    exact hm.store hkey hindex
  · intro m hm _
    exact hm.doubling.fresh

/-- If the first doubling is refused, nothing has changed. -/
theorem hashmapPut_not_granted (hnone : m.hashmapHash key = none)
    (hgrant : ¬ Granted calloc (2 * m.table_size))
    (hres : m.hashmapPut calloc fuel key value = some (st, m')) :
    st = .HMAP_E_OUTMEM ∧ m' = m := by
  cases fuel with
  | zero =>
    rw [HashMap.hashmapPut, hnone] at hres
    cases hres
  | succ fuel =>
    have hre : hashmapRehash calloc (HashMap.hashmapPut calloc fuel) m = some (.HMAP_E_OUTMEM, m) :=
      if_neg hgrant
    simp only [HashMap.hashmapPut, hnone, hre] at hres
    cases hres
    exact ⟨rfl, rfl⟩

/-! ## Climbing -/

/-- Entries are put one after the other, and whenever one finds no slot they come again to a table
of twice the size: at last all are put (`true`), or the memory is missing. -/
inductive Climbs (calloc : Nat → Bool) :
    HashMap β → List (CStr × β) → Bool → HashMap β → Prop
  | done {t t' : HashMap β} {es : List (CStr × β)} (all : t.refill es = (t', [])) :
      Climbs calloc t es true t'
  | refused {t t' : HashMap β} {es rest : List (CStr × β)} {e : CStr × β}
      (some : t.refill es = (t', e :: rest)) (refused : ¬ Granted calloc (2 * t'.table_size)) :
      Climbs calloc t es false t'
  | again {t t' t'' : HashMap β} {es rest : List (CStr × β)} {e : CStr × β} {ok : Bool}
      (some : t.refill es = (t', e :: rest)) (granted : Granted calloc (2 * t'.table_size))
      (climbs : Climbs calloc (blank (2 * t'.table_size)) (t'.entries ++ e :: rest) ok t'') :
      Climbs calloc t es ok t''

namespace Climbs

theorem of_refill_eq (heq : t.refill es = t'.refill es') (h : Climbs calloc t' es' ok t'') :
    Climbs calloc t es ok t'' := by
  cases h with
  | done all => exact .done (heq.trans all)
  | refused some refused => exact .refused (heq.trans some) refused
  | again some granted climbs => exact .again (heq.trans some) granted climbs

/-- More entries come. -/
theorem append (h : Climbs calloc t es true t') (h' : Climbs calloc t' es' ok t'') :
    Climbs calloc t (es ++ es') ok t'' := by
  generalize htrue : true = all at h
  induction h with
  | done all => exact h'.of_refill_eq (refill_append all)
  | refused => cases htrue
  | again some granted _ ih =>
    refine .again (refill_append_cons some es') granted ?_
    rw [← List.cons_append, ← List.append_assoc]
    exact ih h' htrue

/-- More entries would have come. -/
theorem append_refused (h : Climbs calloc t es false t') (es' : List (CStr × β)) :
    Climbs calloc t (es ++ es') false t' := by
  generalize hfalse : false = all at h
  induction h with
  | done => cases hfalse
  | refused some refused => exact .refused (refill_append_cons some es') refused
  | again some granted _ ih =>
    refine .again (refill_append_cons some es') granted ?_
    rw [← List.cons_append, ← List.append_assoc]
    exact ih hfalse

/-- A slot is there. -/
theorem store (hindex : t.hashmapHash key = some index)
    (hstore : t.store index key value = (st, t')) :
    Climbs calloc t [(key, value)] (st ≠ .HMAP_E_OUTMEM) t' := by
  have hok : decide (st ≠ .HMAP_E_OUTMEM) = true := by
    apply decide_eq_true
    intro hout
    exact store_ne_outmem (congrArg Prod.fst (hstore.trans (congrArg (·, t') hout)))
  have hrefill : t.refill [(key, value)] = (t', []) := by
    rw [refill_cons_some (e := (key, value)) hindex, hstore, refill]
  rw [hok]
  exact .done hrefill

end Climbs

/-- One `hashmap_put` on a table that is filled again. -/
def PutClimbs (calloc : Nat → Bool) (K : Finset CStr)
    (put : HashMap β → CStr → β → Option (Status × HashMap β)) : Prop :=
  ∀ t key value st m', t.Fresh K → key ∈ K → put t key value = some (st, m') →
    Climbs calloc t [(key, value)] (st ≠ .HMAP_E_OUTMEM) m'

/-- The loop of `_hashmap_rehash`, when `hashmap_put` climbs. -/
theorem rehashLoop_climbs (hput : PutClimbs calloc K (hashmapPut calloc fuel : HashMap β → _))
    {old : Slots CStr β} (hold : ∀ i key value, old i = some (key, value) → key ∈ K)
    {is : List Nat} (ht : t.Fresh K) (hg : t.Holds g)
    (hloop : rehashLoop (hashmapPut calloc fuel) old is t = some (st, m')) :
    Climbs calloc t (news g.keys (is.filterMap old)) (st ≠ .HMAP_E_OUTMEM) m' := by
  induction is generalizing t g with
  | nil =>
    cases hloop
    exact .done rfl
  | cons i is ih =>
    cases hslot : old i with
    | none =>
      simp only [rehashLoop, hslot] at hloop
      rw [List.filterMap_cons_none hslot]
      exact ih ht hg hloop
    | some e =>
      obtain ⟨key, value⟩ := e
      simp only [rehashLoop, hslot] at hloop
      have hkey := hold i key value hslot
      rw [List.filterMap_cons_some hslot, news]
      cases hres : t.hashmapPut calloc fuel key value with
      | none =>
        rw [hres] at hloop
        cases hloop
      | some res =>
        obtain ⟨st₁, t₁⟩ := res
        rw [hres] at hloop
        split_ifs with hseen
        · -- the loop ends with `HMAP_E_KEYUSED`
          obtain ⟨rfl, rfl⟩ := ht.put_present hg hseen hres
          cases hloop
          exact .done rfl
        · have habsent : g.lookup key = none :=
            Finmap.lookup_eq_none.mpr (Finmap.mem_keys.not.mp hseen)
          have hclimbs := hput t key value st₁ t₁ ht hkey hres
          by_cases hout : st₁ = .HMAP_E_OUTMEM
          · subst hout
            cases hloop
            exact hclimbs.append_refused _
          · obtain ⟨rfl, hg₁, -⟩ := hashmapPut_spec.absent hg habsent hres hout
            have hrest := ih (ht.hashmapPut hkey hres) hg₁ hloop
            rw [keys_insert] at hrest
            exact hclimbs.append hrest

/-- One call, when the nested ones climb. -/
theorem Doubling.climbs_of
    (hput : PutClimbs calloc K (HashMap.hashmapPut calloc fuel : HashMap β → _))
    (hm : Doubling K m) (hkey : key ∈ K) (hnone : m.hashmapHash key = none)
    (hgrant : Granted calloc (2 * m.table_size))
    (hres : m.hashmapPut calloc (fuel + 1) key value = some (st, m')) :
    Climbs calloc (blank (2 * m.table_size)) (news ∅ m.entries ++ [(key, value)])
      (st ≠ .HMAP_E_OUTMEM) m' := by
  have hholds : (blank (2 * m.table_size) : HashMap β).Holds ∅ :=
    holds_empty (lt_of_lt_of_le (by decide) hm.tableSize.double.le)
  have hloop : ∀ {st₁ m₁},
      hashmapRehash calloc (HashMap.hashmapPut calloc fuel) m = some (st₁, m₁) →
      Climbs calloc (blank (2 * m.table_size)) (news ∅ m.entries) (st₁ ≠ .HMAP_E_OUTMEM) m₁ ∧
        m₁.Fresh K := by
    intro st₁ m₁ hre
    rcases hashmapRehash_cases hre with ⟨-, hloop⟩ | ⟨hrefused, -⟩
    · refine ⟨rehashLoop_climbs hput hm.key_mem hm.fresh hholds hloop, ?_⟩
      refine rehashLoop_keeps ?_ hm.key_mem hm.fresh hloop
      intro t key value st t' hkey ht hres
      exact ht.hashmapPut hkey hres
    · exact absurd hgrant hrefused
  rcases hashmapPut_inv hres with ⟨index, hindex, -⟩ | ⟨-, ⟨rfl, hre⟩ | ⟨st₁, m₁, hre, hst₁, hres⟩⟩
  · rw [hnone] at hindex
    cases hindex
  · exact (hloop hre).1.append_refused _
  · obtain ⟨hclimbs, hm₁⟩ := hloop hre
    rw [decide_eq_true hst₁] at hclimbs
    exact hclimbs.append (hput m₁ key value st m' hm₁ hkey hres)

theorem hashmapPut_climbs : PutClimbs calloc K (hashmapPut calloc fuel : HashMap β → _) := by
  induction fuel with
  | zero =>
    intro t key value st m' _ _ hres
    obtain ⟨index, hindex, hstore⟩ := Option.map_eq_some_iff.mp hres
    exact .store hindex hstore
  | succ fuel ih =>
    intro t key value st m' ht hkey hres
    cases hindex : t.hashmapHash key with
    | some index =>
      simp only [HashMap.hashmapPut, hindex] at hres
      exact .store hindex (Option.some_inj.mp hres)
    | none =>
      have hsome : t.refill [(key, value)] = (t, [(key, value)]) :=
        refill_cons_none (e := (key, value)) hindex
      by_cases hgrant : Granted calloc (2 * t.table_size)
      · refine .again hsome hgrant ?_
        have hclimbs := ht.doubling.climbs_of ih hkey hindex hgrant hres
        rwa [news_entries ht.distinct] at hclimbs
      · obtain ⟨rfl, rfl⟩ := hashmapPut_not_granted hindex hgrant hres
        exact .refused hsome hgrant

/-- **Where there is memory for the first doubling**, everything comes again to the doubled table,
and the new entry last. -/
theorem Doubling.climbs (hm : Doubling K m) (hkey : key ∈ K) (hnone : m.hashmapHash key = none)
    (hgrant : Granted calloc (2 * m.table_size))
    (hres : m.hashmapPut calloc fuel key value = some (st, m')) :
    Climbs calloc (blank (2 * m.table_size)) (news ∅ m.entries ++ [(key, value)])
      (st ≠ .HMAP_E_OUTMEM) m' := by
  cases fuel with
  | zero =>
    rw [HashMap.hashmapPut, hnone] at hres
    cases hres
  | succ fuel => exact hm.climbs_of hashmapPut_climbs hkey hnone hgrant hres

end HashMap

end DevTools.Daemon
