import DevTools.Daemon.HashMapRefinement

/-!
# Walking over the hash map

`hashmap_iterate` goes up the table and calls a function for every used slot until one call does
not return `HMAP_S_OK`; `hashmap_destroy` goes down the table and calls one for every used slot. The
functions get a value and an argument, which they may change.

**Theorem (`visits_all`).** In every session in which the table answers like the finite map, both
walk over the same list of entries, in opposite directions, and this list has each entry of the
finite map exactly once. An empty map is `HMAP_E_NOTFOUND` to `hashmap_iterate`.
-/

namespace DevTools.Daemon

namespace HashMap

variable {β σ : Type}

/-- The loop of `hashmap_iterate`; `fn` returns its status and what it makes of the argument. -/
def iterateLoop (fn : β → σ → Int × σ) (elems : Slots CStr β) : List Nat → σ → Int × σ
  | [], arg => (0, arg)
  | i :: rest, arg => match elems i with
    | none => iterateLoop fn elems rest arg
    | some elem =>
      let r := fn elem.2 arg
      if r.1 ≠ 0 then r else iterateLoop fn elems rest r.2

/-- `hashmap_iterate`, with what becomes of the argument; `-3` is `HMAP_E_NOTFOUND`. -/
def hashmapIterate (m : HashMap β) (fn : β → σ → Int × σ) (arg : σ) : Int × σ :=
  if m.hashmapSize ≤ 0 then (-3, arg)
  else iterateLoop fn m.elems (List.range m.table_size) arg

/-- The loop of `hashmap_destroy`, when `n` slots are left. -/
def destroyLoop (fn : Option (β → σ → σ)) (elems : Slots CStr β) : Nat → σ → σ
  | 0, arg => arg
  | n + 1, arg => match elems n, fn with
    | some elem, some fn => destroyLoop (some fn) elems n (fn elem.2 arg)
    | _, fn => destroyLoop fn elems n arg

/-- `hashmap_destroy`, as far as its function sees it. -/
def hashmapDestroy (m : HashMap β) (fnFreeValue : Option (β → σ → σ)) (arg : σ) : σ :=
  destroyLoop fnFreeValue m.elems m.table_size arg

/-! ## One entry after the other -/

/-- One call after the other, until one does not return zero. -/
def visit (fn : β → σ → Int × σ) : List (CStr × β) → σ → Int × σ
  | [], arg => (0, arg)
  | e :: rest, arg =>
    let r := fn e.2 arg
    if r.1 ≠ 0 then r else visit fn rest r.2

variable {m : HashMap β} {f : Contents β}

theorem iterateLoop_eq (fn : β → σ → Int × σ) (elems : Slots CStr β) (is : List Nat) (arg : σ) :
    iterateLoop fn elems is arg = visit fn (is.filterMap elems) arg := by
  induction is generalizing arg with
  | nil => rfl
  | cons i is ih =>
    cases hslot : elems i with
    | none => rw [iterateLoop, hslot, List.filterMap_cons_none hslot, ih]
    | some e =>
      rw [iterateLoop, hslot, List.filterMap_cons_some hslot, visit]
      simp only [ih]

theorem destroyLoop_none (elems : Slots CStr β) (n : Nat) (arg : σ) :
    destroyLoop none elems n arg = arg := by
  induction n with
  | zero => rfl
  | succ n ih => cases hslot : elems n <;> simp [destroyLoop, hslot, ih]

theorem destroyLoop_some (fn : β → σ → σ) (elems : Slots CStr β) (n : Nat) (arg : σ) :
    destroyLoop (some fn) elems n arg =
      ((List.range n).filterMap elems).reverse.foldl (fun arg e => fn e.2 arg) arg := by
  induction n generalizing arg with
  | zero => rfl
  | succ n ih =>
    rw [List.range_succ, List.filterMap_append, List.reverse_append, List.foldl_append]
    cases hslot : elems n with
    | none => simp [destroyLoop, hslot, ih]
    | some e => simp [destroyLoop, hslot, ih]

/-- The entries are visited in order, or there are none. -/
theorem Holds.hashmapIterate_eq (hm : m.Holds f) (fn : β → σ → Int × σ) (arg : σ) :
    m.hashmapIterate fn arg = if m.entries = [] then (-3, arg) else visit fn m.entries arg := by
  have hlen := hm.length_entries
  have hiff : m.hashmapSize ≤ 0 ↔ m.entries = [] := by
    rw [hashmapSize, ← hlen, ← List.length_eq_zero_iff]
    omega
  unfold hashmapIterate
  by_cases hempty : m.entries = []
  · rw [if_pos (hiff.mpr hempty), if_pos hempty]
  · rw [if_neg (fun hle => hempty (hiff.mp hle)), if_neg hempty, iterateLoop_eq]
    rfl

end HashMap

/-- **Every entry is visited once.** -/
theorem visits_all {β : Type} {calloc : Nat → Bool} {s : Session β}
    (h : ((Session.calls calloc).restrict fun s a => s.Seen a.1).Reach s) :
    ∃ es : List (CStr × β),
      (es : Multiset (CStr × β)) = s.map.entries.map (fun e => (e.1, e.2)) ∧
      (∀ (σ : Type) (fn : β → σ → Int × σ) (arg : σ),
        s.table.hashmapIterate fn arg =
          if es = [] then (-3, arg) else HashMap.visit fn es arg) ∧
      ∀ (σ : Type) (arg : σ), s.table.hashmapDestroy none arg = arg ∧
        ∀ fn : β → σ → σ, s.table.hashmapDestroy (some fn) arg =
          es.reverse.foldl (fun arg e => fn e.2 arg) arg := by
  have hm := (Session.holds_reach h)
  refine ⟨s.table.entries, hm.entries_eq, ?_, ?_⟩
  · intro σ fn arg
    exact hm.hashmapIterate_eq fn arg
  · intro σ arg
    exact ⟨HashMap.destroyLoop_none _ _ arg, fun fn => HashMap.destroyLoop_some fn _ _ arg⟩

/-- Two keys are put, one is removed and put again, and the map is destroyed. -/
theorem visits_all_sample :
    ∃ es : List (CStr × Nat),
      (es : Multiset (CStr × Nat)) =
        Session.sampleAgain.map.entries.map (fun e => (e.1, e.2)) ∧ es.length = 2 ∧
      Session.sampleAgain.table.hashmapDestroy (some fun v vs => v :: vs) [] =
        es.reverse.foldl (fun vs e => e.2 :: vs) [] := by
  have habsent : Session.sampleHidden.map.lookup Session.sampleKeys.1 = none := by decide +kernel
  have hreach := Session.sampleHidden_reach.step
    (a := (.put Session.sampleKeys.1 3, .status .HMAP_S_OK))
    ⟨Session.seen_of_absent Session.sampleHidden_reach habsent 3, Session.sampleAgain_step⟩
  obtain ⟨es, hes, -, hdestroy⟩ := visits_all hreach
  have hcard := congrArg Multiset.card hes
  rw [Multiset.coe_card, Multiset.card_map] at hcard
  have htwo : Session.sampleAgain.map.entries.card = 2 := by decide +kernel
  exact ⟨es, hes, hcard.trans htwo, (hdestroy (List Nat) []).2 _⟩

end DevTools.Daemon
