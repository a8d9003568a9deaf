import DevTools.Lib.Shuffle

/-!
# The mix of transactions

The threads of the driver ask `seq_get` which transaction comes next. It deals them out from `seq`,
which holds `no` new orders, `py` payments and so on, and is filled and shuffled again when it is
used up. The body of `seq_get` runs under a mutex, so that the calls of all threads are one
sequence. The sum of the weights must not overflow `int`, and there must be memory for `seq`.

**Theorem (`mix_exact`).** With such weights, and whatever `rand` returns, calls `k * total` to
`(k + 1) * total - 1` get each transaction as often as its weight says, and a round that is not
finished has none of them more often.
-/

namespace DevTools.Tpcc

/-- The weights of `seq_init`, whose sum is an `int`. -/
structure Weights where
  no : Nat
  py : Nat
  os : Nat
  dl : Nat
  sl : Nat
  isInt : no + py + os + dl + sl ≤ 2147483647

namespace Weights

def total (w : Weights) : Nat := w.no + w.py + w.os + w.dl + w.sl

/-- What the five loops of `shuffle` write. -/
def mixed (w : Weights) : List Nat :=
  List.replicate w.no 0 ++ List.replicate w.py 1 ++ List.replicate w.os 2 ++
    List.replicate w.dl 3 ++ List.replicate w.sl 4

theorem length_mixed (w : Weights) : w.mixed.length = w.total := by
  simp only [mixed, total, List.length_append, List.length_replicate]

end Weights

/-- The static variables of `sequence.c` that change. -/
structure Seq where
  seq : Nat → Nat
  next_num : Nat

/-- `rnd+i` in turn `i`, where `j` is `total - 1 - i`. -/
def pickFrom (w : Weights) (rand : Nat → Nat) (i : Nat) : Nat := rand i % (w.total - 1 - i + 1) + i

/-- `shuffle()`. -/
def Weights.shuffle (w : Weights) (rand : Nat → Nat) : Nat → Nat :=
  DevTools.shuffle (pickFrom w rand) (List.range (w.total - 1)) fun j => w.mixed.getD j 0

def seq_init (w : Weights) (rand : Nat → Nat) : Seq := ⟨w.shuffle rand, 0⟩

/-- `seq_get()`; `rand` is used if `seq` is shuffled again. -/
def seq_get (w : Weights) (rand : Nat → Nat) (s : Seq) : Nat × Seq :=
  let s := if s.next_num ≥ w.total then ⟨w.shuffle rand, 0⟩ else s
  (s.seq s.next_num, { s with next_num := s.next_num + 1 })

/-- One call after the other, and what they return. -/
def seqGets (w : Weights) : List (Nat → Nat) → Seq → List Nat × Seq
  | [], s => ([], s)
  | rand :: rands, s =>
    let r := seq_get w rand s
    (r.1 :: (seqGets w rands r.2).1, (seqGets w rands r.2).2)

/-! ## Rounds -/

variable {w : Weights}

theorem shuffle_mixed (rand : Nat → Nat) :
    ((List.range w.total).map (w.shuffle rand)).Perm w.mixed := by
  have hmixed : (List.range w.total).map (fun j => w.mixed.getD j 0) = w.mixed := by
    refine List.ext_getElem (by simp [w.length_mixed]) fun i _ hi => ?_
    simp [List.getD_eq_getElem?_getD, List.getElem?_eq_getElem hi]
  rw [← hmixed]
  refine shuffle_perm ?_ _
  intro i hi
  rw [List.mem_range] at hi
  have hlt : rand i % (w.total - 1 - i + 1) < w.total - 1 - i + 1 := Nat.mod_lt _ (Nat.succ_pos _)
  unfold pickFrom
  omega

/-- `outs` has been dealt out: some whole rounds, and `seq` up to `next_num`. -/
structure Dealt (w : Weights) (outs : List Nat) (s : Seq) : Prop where
  perm : ((List.range w.total).map s.seq).Perm w.mixed
  next : s.next_num ≤ w.total
  rounds : ∃ rounds : List (List Nat), (∀ r ∈ rounds, r.Perm w.mixed) ∧
    outs = rounds.flatten ++ (List.range s.next_num).map s.seq

theorem dealt_init (rand : Nat → Nat) : Dealt w [] (seq_init w rand) :=
  ⟨shuffle_mixed rand, Nat.zero_le _, [], nofun, rfl⟩

theorem dealt_get (hpos : 0 < w.total) {outs : List Nat} {s : Seq} (h : Dealt w outs s)
    (rand : Nat → Nat) : Dealt w (outs ++ [(seq_get w rand s).1]) (seq_get w rand s).2 := by
  obtain ⟨rounds, hrounds, rfl⟩ := h.rounds
  unfold seq_get
  by_cases hend : s.next_num ≥ w.total
  · -- the round is over, and becomes one of the whole ones
    have hnext : s.next_num = w.total := Nat.le_antisymm h.next hend
    rw [if_pos hend]
    refine ⟨shuffle_mixed rand, hpos, rounds ++ [(List.range s.next_num).map s.seq], ?_, ?_⟩
    · intro r hr
      rcases List.mem_append.1 hr with hr | hr
      · exact hrounds r hr
      · rw [List.mem_singleton.1 hr, hnext]
        exact h.perm
    · simp
  · rw [if_neg hend]
    refine ⟨h.perm, by simp only; omega, rounds, hrounds, ?_⟩
    simp [List.range_succ]

theorem dealt_gets (hpos : 0 < w.total) (rands : List (Nat → Nat)) {outs : List Nat} {s : Seq}
    (h : Dealt w outs s) :
    Dealt w (outs ++ (seqGets w rands s).1) (seqGets w rands s).2 := by
  induction rands generalizing outs s with
  | nil => simpa [seqGets] using h
  | cons rand rands ih => simpa [seqGets] using ih (dealt_get hpos h rand)

/-- The blocks of a list that is made of lists of the same length. -/
theorem take_drop_flatten {L : Nat} {rounds : List (List Nat)} (hall : ∀ r ∈ rounds, r.length = L)
    {rest : List Nat} (hrest : rest.length ≤ L) (k : Nat) :
    ((rounds.flatten ++ rest).drop (k * L)).take L = (rounds ++ [rest]).getD k [] := by
  induction rounds generalizing k with
  | nil =>
    cases k with
    | zero => simpa using List.take_of_length_le hrest
    | succ k =>
      have hle : rest.length ≤ (k + 1) * L := by
        rw [Nat.succ_mul]
        omega
      simp [List.drop_of_length_le hle]
  | cons r rounds ih =>
    obtain ⟨hr, hall⟩ := List.forall_mem_cons.1 hall
    cases k with
    | zero => simp [← hr]
    | succ k =>
      have hdrop : ((r :: rounds).flatten ++ rest).drop ((k + 1) * L) =
          (rounds.flatten ++ rest).drop (k * L) := by
        rw [List.flatten_cons, List.append_assoc, Nat.succ_mul, Nat.add_comm, ← hr,
          List.drop_append, List.drop_of_length_le (Nat.le_add_right _ _), List.nil_append,
          Nat.add_sub_cancel_left]
      rw [hdrop, ih hall k]
      rfl

/-- **The mix is exact in every round.** -/
theorem mix_exact (w : Weights) (hpos : 0 < w.total) (rand : Nat → Nat)
    (rands : List (Nat → Nat)) (k : Nat) :
    let outs := (seqGets w rands (seq_init w rand)).1
    ((outs.drop (k * w.total)).take w.total).Subperm w.mixed ∧
      ((k + 1) * w.total ≤ outs.length →
        ((outs.drop (k * w.total)).take w.total).Perm w.mixed) := by
  intro outs
  have hdealt := dealt_gets hpos rands (dealt_init (w := w) rand)
  obtain ⟨rounds, hrounds, heq⟩ := hdealt.rounds
  have hlen : ∀ r ∈ rounds, r.length = w.total := fun r hr =>
    (hrounds r hr).length_eq.trans w.length_mixed
  rw [List.nil_append] at heq
  have hparts : ∀ r ∈ rounds ++ [(List.range (seqGets w rands (seq_init w rand)).2.next_num).map
      (seqGets w rands (seq_init w rand)).2.seq], r.Subperm w.mixed := by
    intro r hr
    rcases List.mem_append.1 hr with hr | hr
    · exact (hrounds r hr).subperm
    · rw [List.mem_singleton.1 hr]
      have hsublist := (List.range_sublist.2 hdealt.next).map
        (seqGets w rands (seq_init w rand)).2.seq
      exact hsublist.subperm.trans hdealt.perm.subperm
  have hsub : ((outs.drop (k * w.total)).take w.total).Subperm w.mixed := by
    show (((seqGets w rands (seq_init w rand)).1.drop _).take _).Subperm w.mixed
    rw [heq, take_drop_flatten hlen (by simpa using hdealt.next), List.getD_eq_getElem?_getD]
    cases hget : (rounds ++ [_])[k]? with
    | none => exact List.nil_subperm
    | some r => exact hparts r (List.mem_of_getElem? hget)
  refine ⟨hsub, fun hk => ?_⟩
  refine hsub.perm_of_length_le ?_
  rw [w.length_mixed, List.length_take, List.length_drop]
  rw [Nat.succ_mul] at hk
  omega

/-- Two new orders and a payment, over two rounds. -/
theorem mix_exact_sample :
    (((seqGets ⟨2, 1, 0, 0, 0, by decide⟩ (List.replicate 6 fun i => i + 1)
      (seq_init ⟨2, 1, 0, 0, 0, by decide⟩ fun _ => 1)).1.drop 3).take 3).Perm [0, 0, 1] :=
  (mix_exact ⟨2, 1, 0, 0, 0, by decide⟩ (by decide) (fun _ => 1)
    (List.replicate 6 fun i => i + 1) 1).2 (by decide)

end DevTools.Tpcc
