import DevTools.Sequence.DefaultWorker

/-!
# Refilling, all or nothing

`nextRange` writes to the worker through a pointer and leaves by an exception, so it is a program
over the worker's state here (`nextRangeM`). `nextRangeM_run` says that `nextRange` describes it: a
failure leaves the worker as it was.

**Theorem (`all_or_nothing_iff`).** For a reply with a comma the refill either throws and changes
nothing, or installs the two numbers as a segment that starts above 0 and does not end before it
starts, exactly if they are as in `ValidReply`. The tests in the code are for -1 and for 0 only:
`-5,10` is installed (`negative_installed`), and so are a negative step and one that is cut to an
`int`. A number near the end of `int64_t` ends the process.
-/

namespace DevTools.Sequence

/-! ## `nextRange` as it runs -/

/-- The tests on `newValue`; the three assignments are made one after the other. -/
def installM (name : String) (newValue step : Int) :
    EStateM RefillFailure DefaultSequenceWorker Int :=
  if newValue = -1 then
    throw (.throws ⟨"DBServer busy, Please contact the administrator!"⟩)
  else if newValue = 0 then
    throw (.throws ⟨"Sequence value cannot be less than zero, value = " ++ toString newValue ++
      ", please check table " ++ tableName ++ " and Sequence name " ++ name⟩)
  else if newValue < 0x7fffffffffffffff - DELTA then do
    modify fun out => { out with value := newValue }
    modify fun out => { out with max := wrap64 (newValue + step) }
    modify fun out => { out with step := step }
    return 0
  else
    throw (.fatal ("Sequence value overflow, value = " ++ toString newValue ++
      ", please check table " ++ tableName ++ " and Sequence name " ++ name))

/-- `nextRange(name, out)` with `out` as the state. -/
def nextRangeM (name : String) (reply : DbReply) :
    EStateM RefillFailure DefaultSequenceWorker Int :=
  if name = "" then throw (.throws ⟨"sequence name can't null"⟩)
  else match reply with
    | .noConnection => throw (.throws ⟨"can't get connection"⟩)
    | .sqlException => throw (.throws ⟨"System Error"⟩)
    | .noRow => installM name (-1) 0
    | .row text => match parseReply text with
      | none => throw .overrun
      | some (newValue, step) => installM name newValue step

/-- A result with the worker it leaves behind. -/
def leaves (out : DefaultSequenceWorker) : Except RefillFailure DefaultSequenceWorker →
    EStateM.Result RefillFailure DefaultSequenceWorker Int
  | .ok w => .ok 0 w
  | .error e => .error e out

theorem installM_run (name : String) (v s : Int) (out : DefaultSequenceWorker) :
    (installM name v s).run out = leaves out (install name v s out) := by
  unfold installM install
  split_ifs <;> rfl

/-- **A failed refill changes nothing.** -/
theorem nextRangeM_run (name : String) (reply : DbReply) (out : DefaultSequenceWorker) :
    (nextRangeM name reply).run out = leaves out (nextRange name reply out) := by
  unfold nextRangeM nextRange
  split_ifs with hname
  · rfl
  · cases reply with
    | noConnection => rfl
    | sqlException => rfl
    | noRow => exact installM_run name (-1) 0 out
    | row text =>
      simp only
      cases parseReply text with
      | none => rfl
      | some vs => exact installM_run name vs.1 vs.2 out

/-! ## Which replies are handled well -/

/-- What a refill should do. A process that ends has done neither of the two. -/
def AllOrNothing (reply : DbReply) (out : DefaultSequenceWorker) :
    EStateM.Result RefillFailure DefaultSequenceWorker Int → Prop
  | .error (.throws _) w => w.value = out.value ∧ w.max = out.max ∧ w.step = out.step
  | .error _ _ => False
  | .ok code w => code = 0 ∧
      (∀ l r, ',' ∉ l → reply = .row (l ++ ',' :: r) → w.value = atol l ∧ w.step = atol r) ∧
      w.max = w.value + w.step ∧ 0 < w.value ∧ w.value ≤ w.max

/-- A reply `l,r` whose first number is refused, or which describes a segment of positive numbers
inside `int64_t`, no longer than an `int` can say. -/
def ValidReply (l r : List Char) : Prop :=
  atol l = -1 ∨ atol l = 0 ∨
    (0 < atol l ∧ atol l < 0x7fffffffffffffff - DELTA ∧ 0 ≤ atol r ∧ atol r < 2 ^ 31 ∧
      atol l + atol r < 2 ^ 63)

/-- The refill of a reply `l,r`, whatever stands on the two sides. -/
theorem nextRange_comma {name : String} {l r : List Char} (hname : name ≠ "") (hl : ',' ∉ l)
    (out : DefaultSequenceWorker) :
    nextRange name (.row (l ++ ',' :: r)) out =
      if l.head?.any fun c => c.toNat = 0 then install name (-1) 0 out
      else install name (atol l) (wrap32 (atol r)) out := by
  split_ifs with hnul
  · refine nextRange_of_parse hname ?_ out
    rw [parseReply, myStrchr_comma l r hl, if_pos hnul]
  · refine nextRange_of_parse hname (parseReply_comma hl fun c hc h0 => ?_) out
    exact hnul ((Option.any_eq_true _ _).mpr ⟨c, hc, decide_eq_true h0⟩)

/-- A text that is empty as a C string is read as 0. -/
theorem atol_nul {l : List Char} (h : (l.head?.any fun c => c.toNat = 0) = true) :
    atol l = 0 := by
  cases l with
  | nil => cases h
  | cons c l =>
    have h0 : c.toNat = 0 := of_decide_eq_true h
    have hc : c = Char.ofNat 0 := by
      rw [← h0, Char.ofNat_toNat]
    subst hc
    rfl

/-- **When a segment that is installed is a good one.** -/
theorem install_iff {name : String} {l r : List Char} (hl : ',' ∉ l)
    (out : DefaultSequenceWorker) :
    AllOrNothing (.row (l ++ ',' :: r)) out
      (leaves out (install name (atol l) (wrap32 (atol r)) out)) ↔ ValidReply l r := by
  have hv := inInt64_atol l
  unfold install ValidReply
  split_ifs with h1 h0 hlt
  · exact ⟨fun _ => .inl h1, fun _ => ⟨rfl, rfl, rfl⟩⟩
  · exact ⟨fun _ => .inr (.inl h0), fun _ => ⟨rfl, rfl, rfl⟩⟩
  · simp only [leaves, AllOrNothing, h1, h0, false_or, true_and]
    unfold InInt64 at hv
    constructor
    · rintro ⟨hnumbers, hmax, hpos, hle⟩
      -- the installed step is the second number, which is therefore an `int`
      obtain ⟨-, hsnd⟩ := hnumbers l r hl rfl
      have hs := inInt32_wrap32 (atol r)
      unfold InInt32 at hs
      unfold wrap64 at hmax hle
      exact ⟨hpos, hlt, by omega, by omega, by omega⟩
    · rintro ⟨hpos, -, hstep, hint, hsum⟩
      have hstep32 : wrap32 (atol r) = atol r := by
        apply wrap32_of_inInt32
        unfold InInt32
        omega
      have hwrap : wrap64 (atol l + atol r) = atol l + atol r := by
        apply wrap64_of_inInt64
        unfold InInt64
        omega
      rw [hstep32, hwrap]
      refine ⟨?_, rfl, hpos, by omega⟩
      intro l' r' hl' h
      obtain ⟨rfl, rfl⟩ := split_unique hl hl' (DbReply.row.inj h)
      exact ⟨rfl, rfl⟩
  · simp only [leaves, AllOrNothing, h1, h0, false_or, false_iff]
    rintro ⟨-, hlt', -⟩
    exact hlt hlt'

/-- **Refilling is all or nothing** on valid replies, and only on them. -/
theorem all_or_nothing_iff (name : String) (reply : DbReply) (out : DefaultSequenceWorker)
    (hcomma : ∀ text, reply = .row text → ',' ∈ text) :
    AllOrNothing reply out ((nextRangeM name reply).run out) ↔
      name = "" ∨ ∀ l r, ',' ∉ l → reply = .row (l ++ ',' :: r) → ValidReply l r := by
  rw [nextRangeM_run]
  by_cases hname : name = ""
  · simp [nextRange, hname, leaves, AllOrNothing]
  · simp only [hname, false_or]
    cases reply with
    | noConnection => simp [nextRange, hname, leaves, AllOrNothing]
    | sqlException => simp [nextRange, hname, leaves, AllOrNothing]
    | noRow => simp [nextRange, hname, leaves, AllOrNothing, install]
    | row text =>
      obtain ⟨l, r, rfl, hl⟩ := List.eq_append_cons_of_mem (hcomma text rfl)
      have honly : (∀ l' r', ',' ∉ l' → DbReply.row (l ++ ',' :: r) = .row (l' ++ ',' :: r') →
          ValidReply l' r') ↔ ValidReply l r := by
        constructor
        · intro h
          exact h l r hl rfl
        · intro h l' r' hl' heq
          obtain ⟨rfl, rfl⟩ := split_unique hl hl' (DbReply.row.inj heq)
          exact h
      rw [honly, nextRange_comma hname hl]
      split_ifs with hnul
      · have hvalid : ValidReply l r := .inr (.inl (atol_nul hnul))
        simp [install, leaves, AllOrNothing, hvalid]
      · exact install_iff hl out

/-- A worker whose segment is used up. -/
def usedUp : DefaultSequenceWorker :=
  { name := "SEQ", seqBits := 0, datacenterIdMask32 := 0, datacenterIdMask64 := 0,
    value := 7, max := 7, step := 2 }

/-- The reply `-5,10` is installed. -/
theorem negative_installed :
    ¬ ∀ (name : String) (reply : DbReply) (out : DefaultSequenceWorker),
      (∀ text, reply = .row text → ',' ∈ text) →
      AllOrNothing reply out ((nextRangeM name reply).run out) := by
  intro h
  have hbad := h "SEQ" (.row ['-', '5', ',', '1', '0']) usedUp (by simp)
  have hnext : nextRange "SEQ" (.row ['-', '5', ',', '1', '0']) usedUp =
      .ok { usedUp with value := -5, max := 5, step := 10 } := by
    decide
  rw [nextRangeM_run, hnext] at hbad
  exact absurd hbad.2.2.2.1 (by decide)

/-- The reply `7,9` is handled well. -/
theorem all_or_nothing_seven :
    AllOrNothing (.row ['7', ',', '9']) usedUp
      ((nextRangeM "SEQ" (.row ['7', ',', '9'])).run usedUp) := by
  refine (all_or_nothing_iff "SEQ" (.row ['7', ',', '9']) usedUp (by simp)).2 (.inr ?_)
  intro l r hl heq
  have hsplit : ['7'] ++ ',' :: ['9'] = l ++ ',' :: r := DbReply.row.inj heq
  obtain ⟨rfl, rfl⟩ := split_unique (by decide) hl hsplit
  exact .inr (.inr (by decide))

end DevTools.Sequence
