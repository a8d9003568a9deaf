import DevTools.Lib.LockOrder
import DevTools.Tpcc.Transactions
import Mathlib.Data.Int.ConditionallyCompleteOrder
import Mathlib.Data.Prod.Lex

/-!
# The rows that transactions lock

Which rows of the tables a transaction locks, and in which order: `UPDATE`, `DELETE` and
`SELECT .. FOR UPDATE` lock the row they find until the commit or the rollback, and with the
constraints of `add_fkey_idx.sql` the `INSERT` of an order locks the row of its customer. Rows that
a transaction has inserted itself are left out: nobody else sees them before it has ended.

Only these record locks are modelled, each as an exclusive one: no gap or next-key locks, and a
request waits for the transaction that has the row, not for requests that came before it.

**Theorem (`no_deadlock`).** Any number of new orders, payments and deliveries never wait for each
other in a circle: `neword` takes the rows of `stock` in the order of `ol_num_seq`, and everybody
goes through the tables in one order. Without the sort two new orders can (`unsorted_deadlock`).
-/

namespace DevTools.Tpcc

inductive Row
  | warehouse (w_id : Int)
  | district (w_id d_id : Int)
  | new_orders (w_id d_id o_id : Int)
  | orders (w_id d_id o_id : Int)
  | order_line (w_id d_id o_id : Int) (ol_number : Nat)
  | customer (w_id d_id c_id : Int)
  | stock (w_id i_id : Int)
  deriving DecidableEq, Repr

/-- The key by which `neword` sorts the rows of `stock`. -/
def stockKey (w_id i_id : Int) : Int := wrap32 ((MAXITEMS + 1) * w_id + i_id)

namespace Row

/-- The place of its table in the order. -/
def table : Row → Nat
  | warehouse _ => 0
  | district _ _ => 1
  | new_orders _ _ _ => 2
  | orders _ _ _ => 3
  | order_line _ _ _ _ => 4
  | customer _ _ _ => 5
  | stock _ _ => 6

/-- The row in its table. -/
def place : Row → ℤ ×ₗ ℤ ×ₗ ℤ ×ₗ ℕ
  | warehouse w => toLex (w, toLex (0, toLex (0, 0)))
  | district w d => toLex (w, toLex (d, toLex (0, 0)))
  | new_orders w d o => toLex (w, toLex (d, toLex (o, 0)))
  | orders w d o => toLex (w, toLex (d, toLex (o, 0)))
  | order_line w d o n => toLex (w, toLex (d, toLex (o, n)))
  | customer w d c => toLex (w, toLex (d, toLex (c, 0)))
  | stock w i => toLex (stockKey w i, toLex (w, toLex (i, 0)))

def rank (r : Row) : ℕ ×ₗ ℤ ×ₗ ℤ ×ₗ ℤ ×ₗ ℕ := toLex (r.table, r.place)

theorem rank_injective : Function.Injective rank := by
  intro a b h
  cases a <;> cases b <;> simp_all [rank, table, place]

noncomputable instance : PartialOrder Row := PartialOrder.lift rank rank_injective

theorem le_iff {a b : Row} : a ≤ b ↔ a.table < b.table ∨ a.table = b.table ∧ a.place ≤ b.place :=
  Prod.Lex.toLex_le_toLex

/-- Rows of a table that comes first. -/
theorem le_of_table {a b : Row} (h : a.table < b.table) : a ≤ b := le_iff.2 (.inl h)

theorem order_line_le {w d o : Int} {m n : Nat} (h : m ≤ n) :
    order_line w d o m ≤ order_line w d o n := by
  refine le_iff.2 (.inr ⟨rfl, ?_⟩)
  simp [place, Prod.Lex.toLex_le_toLex, h]

end Row

/-- What a transaction locks depends on. -/
inductive Locking
  /-- `fkeys`: there are foreign keys -/
  | neword (fkeys : Bool) (t : NewOrder)
  | payment (w_id d_id c_w_id c_d_id c_id : Int)
  /-- one district of `delivery` -/
  | delivery (w_id d_id no_o_id c_id : Int) (o_ol_cnt : Nat)

namespace Locking

/-- The rows of `stock`, as the loop over the lines comes to them. -/
def stockRows (l : Lines) (seq : Nat → Nat) : List Row :=
  (List.range l.o_ol_cnt).map fun k => .stock (l.supware (seq k)) (l.itemid (seq k))

def rows : Locking → List Row
  | neword fkeys t =>
    .district t.w_id t.d_id :: (if fkeys then [.customer t.w_id t.d_id t.c_id] else []) ++
      stockRows t.lines t.lines.ol_num_seq
  | payment w d c_w c_d c => [.warehouse w, .district w d, .customer c_w c_d c]
  | delivery w d o c n =>
    .new_orders w d o :: .orders w d o :: (List.range n).map (fun k => .order_line w d o (k + 1)) ++
      [.customer w d c]

/-- The warehouses fit into their column and the items are those that `do_neword` draws. -/
def Valid : Locking → Prop
  | neword _ t => ∀ k, k < t.lines.o_ol_cnt →
      (1 ≤ t.lines.supware k ∧ t.lines.supware k < 2 ^ 15) ∧
      1 ≤ t.lines.itemid k ∧ t.lines.itemid k ≤ MAXITEMS + 1
  | _ => True

/-- What some transaction locks. -/
def Plan (rows : List Row) : Prop := ∃ t : Locking, t.Valid ∧ rows = t.rows

/-! ## The order -/

/-- Up to `2 ^ 15` warehouses, the key tells the rows apart, also when it overflows. -/
theorem stockKey_injective {w i w' i' : Int} (hw : 1 ≤ w ∧ w < 2 ^ 15) (hw' : 1 ≤ w' ∧ w' < 2 ^ 15)
    (hi : 1 ≤ i ∧ i ≤ MAXITEMS + 1) (hi' : 1 ≤ i' ∧ i' ≤ MAXITEMS + 1)
    (h : stockKey w i = stockKey w' i') : w = w' ∧ i = i' := by
  unfold MAXITEMS at hi hi'
  have hwrap : ∀ x y : Int, 0 ≤ x → x < 2 ^ 32 → 0 ≤ y → y < 2 ^ 32 →
      wrap32 x = wrap32 y → x = y := by
    intro x y hx hx' hy hy' hxy
    unfold wrap32 at hxy
    omega
  have heq : (MAXITEMS + 1) * w + i = (MAXITEMS + 1) * w' + i' := by
    unfold MAXITEMS
    refine hwrap _ _ (by omega) (by omega) (by omega) (by omega) h
  unfold MAXITEMS at heq
  omega

theorem stock_le {w i w' i' : Int} (hw : 1 ≤ w ∧ w < 2 ^ 15) (hw' : 1 ≤ w' ∧ w' < 2 ^ 15)
    (hi : 1 ≤ i ∧ i ≤ MAXITEMS + 1) (hi' : 1 ≤ i' ∧ i' ≤ MAXITEMS + 1)
    (h : stockKey w i ≤ stockKey w' i') : Row.stock w i ≤ Row.stock w' i' := by
  rcases h.lt_or_eq with hlt | heq
  · refine Row.le_iff.2 (.inr ⟨rfl, ?_⟩)
    exact Prod.Lex.toLex_le_toLex.2 (.inl hlt)
  · obtain ⟨rfl, rfl⟩ := stockKey_injective hw hw' hi hi' heq
    exact le_rfl

theorem stockRows_sorted {fkeys : Bool} {t : NewOrder} (ht : (neword fkeys t).Valid) :
    (stockRows t.lines t.lines.ol_num_seq).Pairwise (· ≤ ·) := by
  unfold stockRows
  rw [List.pairwise_map]
  refine List.pairwise_lt_range.imp_of_mem fun {a b} ha hb hab => ?_
  rw [List.mem_range] at ha hb
  obtain ⟨hwa, hia⟩ := ht _ (t.lines.ol_num_seq_lt ha)
  obtain ⟨hwb, hib⟩ := ht _ (t.lines.ol_num_seq_lt hb)
  exact stock_le hwa hwb hia hib (selectionSort_mono t.lines.key hab hb)

theorem mem_stockRows {l : Lines} {seq : Nat → Nat} {r : Row} (h : r ∈ stockRows l seq) :
    r.table = 6 := by
  obtain ⟨k, -, rfl⟩ := List.mem_map.1 h
  rfl

theorem rows_sorted (t : Locking) (ht : t.Valid) : t.rows.Pairwise (· ≤ ·) := by
  cases t with
  | neword fkeys t =>
    have hstock := stockRows_sorted ht
    have hdistrict : ∀ r ∈ stockRows t.lines t.lines.ol_num_seq, .district t.w_id t.d_id ≤ r := by
      intro r hr
      refine Row.le_of_table ?_
      rw [mem_stockRows hr]
      simp [Row.table]
    have hcustomer : ∀ r ∈ stockRows t.lines t.lines.ol_num_seq,
        .customer t.w_id t.d_id t.c_id ≤ r := by
      intro r hr
      refine Row.le_of_table ?_
      rw [mem_stockRows hr]
      simp [Row.table]
    cases fkeys with
    | false => exact List.pairwise_cons.2 ⟨hdistrict, hstock⟩
    | true =>
      refine List.pairwise_cons.2 ⟨?_, List.pairwise_cons.2 ⟨hcustomer, hstock⟩⟩
      intro r hr
      rcases List.mem_cons.1 hr with rfl | hr
      · exact Row.le_of_table (by simp [Row.table])
      · exact hdistrict r hr
  | payment w d c_w c_d c =>
    simp only [rows, List.pairwise_cons, List.mem_cons, List.not_mem_nil, or_false,
      forall_eq_or_imp, forall_eq, false_imp_iff, implies_true, List.Pairwise.nil, and_true]
    exact ⟨⟨Row.le_of_table (by simp [Row.table]), Row.le_of_table (by simp [Row.table])⟩,
      Row.le_of_table (by simp [Row.table])⟩
  | delivery w d o c n =>
    have hlines : ((List.range n).map fun k => Row.order_line w d o (k + 1)).Pairwise (· ≤ ·) := by
      rw [List.pairwise_map]
      exact List.pairwise_lt_range.imp fun {a b} hab => Row.order_line_le (by omega)
    have hmem : ∀ r ∈ (List.range n).map fun k => Row.order_line w d o (k + 1), r.table = 4 := by
      intro r hr
      obtain ⟨k, -, rfl⟩ := List.mem_map.1 hr
      rfl
    have hrest : ∀ r ∈ (List.range n).map (fun k => Row.order_line w d o (k + 1)) ++
        [Row.customer w d c], 4 ≤ r.table := by
      intro r hr
      rcases List.mem_append.1 hr with hr | hr
      · exact (hmem r hr).ge
      · rw [List.mem_singleton.1 hr]
        simp [Row.table]
    refine List.pairwise_cons.2 ⟨?_, List.pairwise_cons.2 ⟨?_,
      List.pairwise_append.2 ⟨hlines, ?_, ?_⟩⟩⟩
    · intro r hr
      rcases List.mem_cons.1 hr with rfl | hr
      · exact Row.le_of_table (by simp [Row.table])
      · exact Row.le_of_table (lt_of_lt_of_le (by simp [Row.table]) (hrest r hr))
    · intro r hr
      exact Row.le_of_table (lt_of_lt_of_le (by simp [Row.table]) (hrest r hr))
    · exact List.pairwise_singleton _ _
    · intro r hr r' hr'
      rw [List.mem_singleton.1 hr']
      refine Row.le_of_table ?_
      rw [hmem r hr]
      simp [Row.table]

/-! ## No deadlock -/

variable {ι : Type} [DecidableEq ι] {s : Locks ι Row}

/-- **No circle of waiting transactions.** -/
theorem no_deadlock (h : (Locks.lts (ι := ι) Plan).Reach s) :
    (∀ i, ¬ Relation.TransGen s.WaitsFor i i) ∧
      (Finite ι → (∃ i, s.Running i) → ∃ i, s.Running i ∧ ∀ j, ¬ s.WaitsFor i j) := by
  have hplan : ∀ rows, Plan rows → rows.Pairwise (· ≤ ·) := by
    rintro rows ⟨t, ht, rfl⟩
    exact t.rows_sorted ht
  exact ⟨Locks.no_cycle hplan h, fun _ => Locks.progress hplan h⟩

/-- A payment waits for another one in the same warehouse. -/
def sampleWaiting : Locks Bool Row where
  held
    | false => [.warehouse 1]
    | true => []
  todo
    | false => [.district 1 1, .customer 1 1 7]
    | true => [.warehouse 1, .district 1 2, .customer 1 2 9]

theorem no_deadlock_sample :
    sampleWaiting.WaitsFor true false ∧ ¬ Relation.TransGen sampleWaiting.WaitsFor true true := by
  have hnew : (Locks.lts (ι := Bool) Plan).Reach Locks.new := .init rfl
  have hfirst := hnew.step (.start (i := false) rfl rfl ⟨.payment 1 1 1 1 7, trivial, rfl⟩)
  have hsecond := hfirst.step (.start (i := true) rfl rfl ⟨.payment 1 2 1 2 9, trivial, rfl⟩)
  have hlock := hsecond.step (.lock (i := false) rfl (by decide))
  have hreach : (Locks.lts (ι := Bool) Plan).Reach sampleWaiting := by
    refine cast (congrArg _ ?_) hlock
    refine congrArg₂ Locks.mk ?_ ?_
    · funext i
      cases i <;> rfl
    · funext i
      cases i <;> rfl
  exact ⟨⟨_, _, rfl, by decide, by decide⟩, (no_deadlock hreach).1 true⟩

/-! ## Without the sort -/

/-- What new orders would lock if they took the lines as they come. -/
def PlanUnsorted (rows : List Row) : Prop :=
  ∃ t : NewOrder, (neword false t).Valid ∧
    rows = .district t.w_id t.d_id :: stockRows t.lines id

/-- Two lines of warehouse 1, with the items `i` and `j`. -/
def twoLines (d i j : Int) : NewOrder where
  w_id := 1
  d_id := d
  c_id := 1
  o_all_local := 1
  lines := ⟨2, fun k => if k = 0 then i else j, fun _ => 1, fun _ => 1⟩

theorem twoLines_valid (d : Int) {i j : Int} (hi : 1 ≤ i ∧ i ≤ MAXITEMS + 1)
    (hj : 1 ≤ j ∧ j ≤ MAXITEMS + 1) : (neword false (twoLines d i j)).Valid := by
  intro k _
  refine ⟨⟨le_rfl, show (1 : Int) < 2 ^ 15 by decide⟩, ?_⟩
  simp only [twoLines]
  split
  · exact hi
  · exact hj

/-- Each of two new orders holds the row that the other one asks for. -/
theorem unsorted_deadlock :
    ∃ s : Locks Bool Row, (Locks.lts PlanUnsorted).Reach s ∧
      s.WaitsFor false true ∧ s.WaitsFor true false := by
  have hnew : (Locks.lts (ι := Bool) PlanUnsorted).Reach Locks.new := .init rfl
  have hfirst := hnew.step (.start (i := false) rfl rfl
    ⟨twoLines 1 1 2, twoLines_valid 1 (by decide) (by decide), rfl⟩)
  have hsecond := hfirst.step (.start (i := true) rfl rfl
    ⟨twoLines 2 2 1, twoLines_valid 2 (by decide) (by decide), rfl⟩)
  have hdistrict := hsecond.step (.lock (i := false) rfl (by decide))
  have hdistrict' := hdistrict.step (.lock (i := true) rfl (by decide))
  have hstock := hdistrict'.step (.lock (i := false) rfl (by decide))
  have hstock' := hstock.step (.lock (i := true) rfl (by decide))
  exact ⟨_, hstock', ⟨_, _, rfl, by decide, by decide⟩, ⟨_, _, rfl, by decide, by decide⟩⟩

end Locking

end DevTools.Tpcc
