import DevTools.Tpcc.Transactions
import DevTools.Lib.Transition
import Mathlib.Algebra.BigOperators.Group.Finset.Piecewise
import Mathlib.Algebra.Order.Interval.Finset.SuccPred
import Mathlib.Data.Int.ConditionallyCompleteOrder
import Mathlib.Data.Int.Interval
import Mathlib.Order.Interval.Finset.Basic

/-!
# What the tables say together

`Consistent` relates the tables: the sums of the payments, the order ids of a district, the lines of
an order, what is delivered and what is not, and the stock.

* `Txn.consistent_run`: a transaction keeps it, whether the server carries it out, refuses one of
  its statements or fails to commit.

`payment` checks that there is a warehouse and a district only after it has written to them, and
relies on the rollback; `delivery` relies on the order that the `MIN` names to be there.
-/

namespace DevTools.Tpcc

/-! ## Consistency -/

/-- `d_ytd` of a district, zero if there is none. -/
def DB.d_ytd (db : DB) (key : Int × Int) : Int := ((db.district key).map District.d_ytd).getD 0

/-- What has been paid in a district. -/
def paid (history : List History) (w_id d_id : Int) : Int :=
  ((history.filter fun h => h.h_w_id = w_id ∧ h.h_d_id = d_id).map History.h_amount).sum

structure Consistent (db : DB) : Prop where
  w_ytd : ∀ w row, db.warehouse w = some row →
    row.w_ytd = ∑ d ∈ Finset.Icc (1 : Int) DIST_PER_WARE, db.d_ytd (w, d)
  d_ytd : ∀ w d row, db.district (w, d) = some row → row.d_ytd = paid db.history w d
  district : ∀ w d, db.district (w, d) ≠ none → 1 ≤ d ∧ d ≤ DIST_PER_WARE
  /-- the ids of the orders go from 1 to `d_next_o_id - 1` -/
  orders : ∀ w d o, db.orders (w, d, o) ≠ none ↔
    ∃ row, db.district (w, d) = some row ∧ 1 ≤ o ∧ o < row.d_next_o_id
  /-- the new orders are the last of them -/
  new_orders : ∀ w d row, db.district (w, d) = some row →
    ∃ first, 1 ≤ first ∧ first ≤ row.d_next_o_id ∧
      db.new_orders (w, d) = Finset.Ico first row.d_next_o_id
  no_orders : ∀ w d, db.district (w, d) = none → db.new_orders (w, d) = ∅
  carrier : ∀ w d o order, db.orders (w, d, o) = some order →
    (order.o_carrier_id = none ↔ o ∈ db.new_orders (w, d))
  lines : ∀ key order, db.orders key = some order →
    (db.order_line key).map OrderLine.ol_number = List.range' 1 order.o_ol_cnt
  delivered : ∀ key order, db.orders key = some order → ∀ l ∈ db.order_line key,
    (l.ol_delivery_d = none ↔ order.o_carrier_id = none)
  no_lines : ∀ key, db.orders key = none → db.order_line key = []
  stock : ∀ key s_quantity, db.stock key = some s_quantity → 1 ≤ s_quantity ∧ s_quantity ≤ 100

/-- The quantities are those that `do_neword` draws. -/
def NewOrder.Drawn (t : NewOrder) : Prop :=
  ∀ k, k < t.lines.o_ol_cnt → 1 ≤ t.lines.qty k ∧ t.lines.qty k ≤ 10

def Txn.Drawn : Txn → Prop
  | .neword t => t.Drawn
  | _ => True

/-! ## Statements that succeed -/

section

variable {α β : Type} {srv : Server} {proceed turn : Nat} {db db' : DB}

theorem bind_eq_ok {x : Except Stop α} {f : α → Except Stop β} {b : β} (h : x >>= f = .ok b) :
    ∃ a, x = .ok a ∧ f a = .ok b := by
  cases x with
  | error e => cases h
  | ok a => exact ⟨a, rfl, h⟩

theorem Server.fetch_eq_ok {row : Option α} {a : α} (h : srv.fetch proceed turn row = .ok a) :
    row = some a := by
  unfold Server.fetch at h
  split at h
  · cases row with
    | none => cases h
    | some b =>
      cases h
      rfl
  · cases h

theorem Server.exec_eq_ok (h : srv.exec proceed turn db = .ok db') : db' = db := by
  unfold Server.exec at h
  split at h
  · cases h
    rfl
  · cases h

theorem Server.insert_eq_ok {free : Prop} [Decidable free]
    (h : srv.insert proceed turn free db = .ok db') : free ∧ db' = db := by
  unfold Server.insert at h
  split at h
  · exact ⟨‹free›, exec_eq_ok h⟩
  · cases h

theorem transaction_cases (body : DB → Except Stop DB) :
    (transaction srv turn body db).2 = db ∨
      body db = .ok (transaction srv turn body db).2 := by
  unfold transaction
  split
  · split
    · exact .inr ‹_›
    · exact .inl rfl
  · exact .inl rfl
  · exact .inl rfl

end

variable {fl : Floats} {srv : Server} {db db' : DB}

/-! ## `neword` -/

section

variable {t : NewOrder}

theorem restock_range {s q : Int} (hs : 1 ≤ s ∧ s ≤ 100) (hq : 1 ≤ q ∧ q ≤ 10) :
    1 ≤ restock s q ∧ restock s q ≤ 100 := by
  unfold restock
  split <;> omega

/-- What the loop over the lines has done after `n` turns: it has written `n` lines of the order,
and only stock besides. -/
structure LinesPut (db : DB) (key : Int × Int × Int) (n : Nat) (db' : DB) : Prop where
  same : { db with stock := db'.stock, order_line := db'.order_line } = db'
  numbers : (db'.order_line key).map OrderLine.ol_number = List.range' 1 n
  waiting : ∀ l ∈ db'.order_line key, l.ol_delivery_d = none
  other : ∀ k, k ≠ key → db'.order_line k = db.order_line k
  stock : ∀ k s_quantity, db'.stock k = some s_quantity → 1 ≤ s_quantity ∧ s_quantity ≤ 100

theorem linesPut_line {c_discount w_tax d_tax o_id : Int} {k : Nat} {db₁ db₂ : DB}
    (hqty : 1 ≤ t.lines.qty (t.lines.ol_num_seq k) ∧ t.lines.qty (t.lines.ol_num_seq k) ≤ 10)
    (h : LinesPut db (t.w_id, t.d_id, o_id) k db₁)
    (hline : newordLine fl srv t c_discount w_tax d_tax o_id db₁ k = .ok db₂) :
    LinesPut db (t.w_id, t.d_id, o_id) (k + 1) db₂ := by
  unfold newordLine at hline
  obtain ⟨i_price, -, hline⟩ := bind_eq_ok hline
  obtain ⟨s_quantity, hstock, hline⟩ := bind_eq_ok hline
  obtain ⟨db₃, hupdate, hline⟩ := bind_eq_ok hline
  have hs := h.stock _ _ (Server.fetch_eq_ok hstock)
  obtain rfl := Server.exec_eq_ok hupdate
  obtain ⟨-, rfl⟩ := Server.insert_eq_ok hline
  refine ⟨?_, ?_, ?_, ?_, ?_⟩
  · rw [← h.same]
  · simp only [Function.update_self, List.map_append, h.numbers, List.map_cons, List.map_nil,
      List.range'_1_concat, Nat.add_comm]
  · intro l hl
    simp only [Function.update_self, List.mem_append, List.mem_singleton] at hl
    rcases hl with hl | rfl
    · exact h.waiting l hl
    · rfl
  · intro key hkey
    simp only [Function.update_of_ne hkey]
    exact h.other key hkey
  · intro key q hq
    by_cases hkey : key = (t.lines.supware (t.lines.ol_num_seq k),
        t.lines.itemid (t.lines.ol_num_seq k))
    · simp only [hkey, Function.update_self, Option.some.injEq] at hq
      rw [← hq]
      exact restock_range hs hqty
    · simp only [Function.update_of_ne hkey] at hq
      exact h.stock key q hq

theorem linesPut_loop {c_discount w_tax d_tax o_id : Int} (ht : t.Drawn)
    (hempty : db.order_line (t.w_id, t.d_id, o_id) = [])
    (hstock : ∀ k q, db.stock k = some q → 1 ≤ q ∧ q ≤ 100) {n : Nat}
    (hn : n ≤ t.lines.o_ol_cnt)
    (h : (List.range n).foldlM (newordLine fl srv t c_discount w_tax d_tax o_id) db = .ok db') :
    LinesPut db (t.w_id, t.d_id, o_id) n db' := by
  induction n generalizing db' with
  | zero =>
    cases h
    refine ⟨rfl, ?_, ?_, fun _ _ => rfl, hstock⟩
    · rw [hempty]
      rfl
    · rw [hempty]
      exact nofun
  | succ n ih =>
    rw [List.range_succ, List.foldlM_append] at h
    obtain ⟨db₁, hfirst, hlast⟩ := bind_eq_ok h
    obtain ⟨db₂, hline, hnil⟩ := bind_eq_ok hlast
    cases hnil
    exact linesPut_line (ht _ (t.lines.ol_num_seq_lt (by omega))) (ih (by omega) hfirst) hline

/-- The tables before the loop over the lines. -/
def newordHead (t : NewOrder) (row : District) (db : DB) : DB :=
  { db with
    district := Function.update db.district (t.w_id, t.d_id)
      (some { row with d_next_o_id := row.d_next_o_id + 1 })
    orders := Function.update db.orders (t.w_id, t.d_id, row.d_next_o_id)
      (some ⟨t.c_id, none, t.lines.o_ol_cnt, t.o_all_local⟩)
    new_orders := Function.update db.new_orders (t.w_id, t.d_id)
      (insert row.d_next_o_id (db.new_orders (t.w_id, t.d_id))) }

theorem newordBody_ok (hdb : Consistent db) (ht : t.Drawn)
    (h : newordBody fl srv t db = .ok db') :
    ∃ row, db.district (t.w_id, t.d_id) = some row ∧
      db.orders (t.w_id, t.d_id, row.d_next_o_id) = none ∧
      LinesPut (newordHead t row db) (t.w_id, t.d_id, row.d_next_o_id) t.lines.o_ol_cnt db' := by
  unfold newordBody at h
  obtain ⟨customer, -, h⟩ := bind_eq_ok h
  obtain ⟨warehouse, -, h⟩ := bind_eq_ok h
  obtain ⟨row, hrow, h⟩ := bind_eq_ok h
  obtain ⟨db₁, hdistrict, h⟩ := bind_eq_ok h
  obtain rfl := Server.exec_eq_ok hdistrict
  obtain ⟨db₂, horders, h⟩ := bind_eq_ok h
  obtain ⟨hnone, rfl⟩ := Server.insert_eq_ok horders
  obtain ⟨db₃, hnew, h⟩ := bind_eq_ok h
  obtain ⟨-, rfl⟩ := Server.insert_eq_ok hnew
  have hloop : (List.range t.lines.o_ol_cnt).foldlM
      (newordLine fl srv t customer.c_discount warehouse.w_tax row.d_tax row.d_next_o_id)
      (newordHead t row db) = .ok db' := h
  refine ⟨row, Server.fetch_eq_ok hrow, hnone, linesPut_loop ht ?_ ?_ le_rfl hloop⟩
  · exact hdb.no_lines _ hnone
  · exact hdb.stock

theorem newordHead_d_ytd {row : District} (hrow : db.district (t.w_id, t.d_id) = some row)
    (key : Int × Int) : (newordHead t row db).d_ytd key = db.d_ytd key := by
  by_cases hkey : key = (t.w_id, t.d_id)
  · simp [DB.d_ytd, newordHead, hkey, hrow]
  · simp [DB.d_ytd, newordHead, Function.update_of_ne hkey]

/-- The order is the next of its district, and the last of its new orders. -/
theorem consistent_newordHead {row : District} (hdb : Consistent db)
    (hrow : db.district (t.w_id, t.d_id) = some row)
    (hput : LinesPut (newordHead t row db) (t.w_id, t.d_id, row.d_next_o_id)
      t.lines.o_ol_cnt db') : Consistent db' := by
  obtain ⟨first, hfirst, hnext, hnew⟩ := hdb.new_orders _ _ _ hrow
  have hne : ∀ w d o, (w, d) ≠ (t.w_id, t.d_id) → (w, d, o) ≠ (t.w_id, t.d_id, row.d_next_o_id) :=
    fun w d o h h' => h (by simp_all)
  rw [← hput.same]
  constructor
  case w_ytd =>
    intro w wrow hw
    rw [hdb.w_ytd w wrow hw]
    exact Finset.sum_congr rfl fun d _ => (newordHead_d_ytd hrow (w, d)).symm
  case d_ytd =>
    intro w d drow hd
    by_cases hkey : (w, d) = (t.w_id, t.d_id)
    · simp only [newordHead, hkey, Function.update_self, Option.some.injEq] at hd
      rw [← hd]
      exact hdb.d_ytd w d row (hkey ▸ hrow)
    · simp only [newordHead, Function.update_of_ne hkey] at hd
      exact hdb.d_ytd w d drow hd
  case district =>
    intro w d hd
    by_cases hkey : (w, d) = (t.w_id, t.d_id)
    · exact hdb.district w d (by simp [hkey, hrow])
    · simp only [newordHead, Function.update_of_ne hkey] at hd
      exact hdb.district w d hd
  case orders =>
    intro w d o
    by_cases hkey : (w, d) = (t.w_id, t.d_id)
    · obtain ⟨rfl, rfl⟩ := Prod.mk.inj hkey
      have hold := hdb.orders t.w_id t.d_id o
      simp only [hrow, Option.some.injEq, exists_eq_left'] at hold
      simp only [newordHead, Function.update_self, Option.some.injEq, exists_eq_left']
      by_cases ho : o = row.d_next_o_id
      · simp only [ho, Function.update_self, ne_eq, reduceCtorEq, not_false_eq_true, true_iff]
        omega
      · rw [Function.update_of_ne (by simpa using ho), hold]
        omega
    · simp only [newordHead, Function.update_of_ne hkey, Function.update_of_ne (hne w d o hkey)]
      exact hdb.orders w d o
  case new_orders =>
    intro w d drow hd
    by_cases hkey : (w, d) = (t.w_id, t.d_id)
    · simp only [newordHead, hkey, Function.update_self, Option.some.injEq] at hd ⊢
      rw [← hd]
      refine ⟨first, hfirst, hnext.trans (Int.le_add_one le_rfl), ?_⟩
      ext o
      simp only [hnew, Finset.mem_insert, Finset.mem_Ico]
      omega
    · simp only [newordHead, Function.update_of_ne hkey] at hd ⊢
      exact hdb.new_orders w d drow hd
  case no_orders =>
    intro w d hd
    by_cases hkey : (w, d) = (t.w_id, t.d_id)
    · simp [newordHead, hkey] at hd
    · simp only [newordHead, Function.update_of_ne hkey] at hd ⊢
      exact hdb.no_orders w d hd
  case carrier =>
    intro w d o order ho
    by_cases hkey : (w, d) = (t.w_id, t.d_id)
    · obtain ⟨rfl, rfl⟩ := Prod.mk.inj hkey
      simp only [newordHead, Function.update_self, Finset.mem_insert] at ho ⊢
      by_cases hon : o = row.d_next_o_id
      · simp only [hon, Function.update_self, Option.some.injEq] at ho
        simp [← ho, hon]
      · rw [Function.update_of_ne (by simpa using hon)] at ho
        rw [hdb.carrier _ _ _ _ ho]
        simp [hon]
    · simp only [newordHead, Function.update_of_ne hkey,
        Function.update_of_ne (hne w d o hkey)] at ho ⊢
      exact hdb.carrier w d o order ho
  case lines =>
    intro key order ho
    by_cases hkey : key = (t.w_id, t.d_id, row.d_next_o_id)
    · simp only [newordHead, hkey, Function.update_self, Option.some.injEq] at ho
      rw [hkey, hput.numbers, ← ho]
    · simp only [newordHead, Function.update_of_ne hkey] at ho
      rw [hput.other key hkey]
      exact hdb.lines key order ho
  case delivered =>
    intro key order ho l hl
    by_cases hkey : key = (t.w_id, t.d_id, row.d_next_o_id)
    · simp only [newordHead, hkey, Function.update_self, Option.some.injEq] at ho
      simp [hput.waiting l (hkey ▸ hl), ← ho]
    · simp only [newordHead, Function.update_of_ne hkey] at ho
      rw [hput.other key hkey] at hl
      exact hdb.delivered key order ho l hl
  case no_lines =>
    intro key ho
    by_cases hkey : key = (t.w_id, t.d_id, row.d_next_o_id)
    · simp [newordHead, hkey] at ho
    · simp only [newordHead, Function.update_of_ne hkey] at ho
      rw [hput.other key hkey]
      exact hdb.no_lines key ho
  case stock => exact hput.stock

theorem consistent_neword (hdb : Consistent db) (ht : t.Drawn) :
    Consistent (neword fl srv t db).2 := by
  rcases transaction_cases (newordBody fl srv t) with heq | hok
  · exact heq ▸ hdb
  · obtain ⟨row, hrow, -, hput⟩ := newordBody_ok hdb ht hok
    exact consistent_newordHead hdb hrow hput

end

/-! ## `payment` -/

section

variable {t : Payment}

/-- `c_data` of a customer. -/
def DB.c_data (db : DB) (key : Int × Int × Int) : Option (List Char) :=
  (db.customer key).map Customer.c_data

theorem payCustomer_ok {key : Int × Int × Int} {row : Customer} {c_balance : Int}
    (hrow : db.customer key = some row) (h : payCustomer srv key row c_balance db = .ok db') :
    db' = { db with
      customer := Function.update db.customer key (some { row with c_balance := c_balance }) } := by
  unfold payCustomer at h
  split at h
  · obtain ⟨c_data, hdata, h⟩ := bind_eq_ok h
    rw [Server.exec_eq_ok h]
    have hdata := Server.fetch_eq_ok hdata
    simp only [hrow, Option.map_some, Option.some.injEq] at hdata
    rw [hdata]
  · exact Server.exec_eq_ok h

/-- Where `payment` succeeds there are the warehouse and the district. -/
theorem paymentBody_ok (h : paymentBody fl srv t db = .ok db') :
    ∃ wrow drow c_id row, db.warehouse t.w_id = some wrow ∧
      db.district (t.w_id, t.d_id) = some drow ∧
      db.customer (t.c_w_id, t.c_d_id, c_id) = some row ∧
      db' = { (db.addYtd t.w_id t.h_amount).addDistrictYtd t.w_id t.d_id t.h_amount with
        customer := Function.update db.customer (t.c_w_id, t.c_d_id, c_id)
          (some { row with c_balance := fl.sub row.c_balance t.h_amount })
        history := ⟨c_id, t.c_d_id, t.c_w_id, t.d_id, t.w_id, t.h_amount⟩ :: db.history } := by
  unfold paymentBody at h
  obtain ⟨db₁, hytd, h⟩ := bind_eq_ok h
  obtain rfl := Server.exec_eq_ok hytd
  obtain ⟨_, hw, h⟩ := bind_eq_ok h
  obtain ⟨db₂, hytd, h⟩ := bind_eq_ok h
  obtain rfl := Server.exec_eq_ok hytd
  obtain ⟨_, hd, h⟩ := bind_eq_ok h
  have hw := Server.fetch_eq_ok hw
  have hd := Server.fetch_eq_ok hd
  simp only [DB.addYtd, DB.addDistrictYtd, Function.update_self, Option.map_eq_some_iff] at hw hd
  obtain ⟨wrow, hw, -⟩ := hw
  obtain ⟨drow, hd, -⟩ := hd
  dsimp only at h
  split at h
  · cases h
  · obtain ⟨row, hrow, h⟩ := bind_eq_ok h
    have hrow := Server.fetch_eq_ok hrow
    obtain ⟨db₃, hcustomer, h⟩ := bind_eq_ok h
    obtain rfl := payCustomer_ok hrow hcustomer
    exact ⟨wrow, drow, t.customer srv, row, hw, hd, hrow, Server.exec_eq_ok h⟩

theorem addDistrictYtd_d_ytd {row : District} {w d : Int} (hrow : db.district (w, d) = some row)
    (h_amount : Int) (key : Int × Int) : (db.addDistrictYtd w d h_amount).d_ytd key =
      db.d_ytd key + if key = (w, d) then h_amount else 0 := by
  by_cases hkey : key = (w, d)
  · simp [DB.d_ytd, DB.addDistrictYtd, hkey, hrow]
  · simp [DB.d_ytd, DB.addDistrictYtd, hkey]

theorem paid_cons (h : History) (history : List History) (w d : Int) :
    paid (h :: history) w d =
      paid history w d + if (w, d) = (h.h_w_id, h.h_d_id) then h.h_amount else 0 := by
  unfold paid
  rw [List.filter_cons]
  by_cases hkey : h.h_w_id = w ∧ h.h_d_id = d
  · simp [hkey, Int.add_comm]
  · have hne : ¬ (w, d) = (h.h_w_id, h.h_d_id) := by
      intro heq
      obtain ⟨rfl, rfl⟩ := Prod.mk.inj heq
      exact hkey ⟨rfl, rfl⟩
    simp [hkey, hne]

/-- A row of `district` after the payment is one from before, with the amount if it is the one paid
to. -/
theorem addDistrictYtd_district {w d w' d' h_amount : Int} {row : District}
    (h : (db.addDistrictYtd w d h_amount).district (w', d') = some row) :
    ∃ old, db.district (w', d') = some old ∧ row.d_next_o_id = old.d_next_o_id ∧
      row.d_ytd = old.d_ytd + if (w', d') = (w, d) then h_amount else 0 := by
  unfold DB.addDistrictYtd at h
  by_cases hkey : (w', d') = (w, d)
  · simp only [hkey, Function.update_self, Option.map_eq_some_iff] at h
    obtain ⟨old, hold, rfl⟩ := h
    exact ⟨old, hkey ▸ hold, rfl, by simp [hkey]⟩
  · simp only [Function.update_of_ne hkey] at h
    exact ⟨row, h, rfl, by simp [hkey]⟩

theorem addDistrictYtd_eq_none {w d h_amount : Int} {key : Int × Int} :
    (db.addDistrictYtd w d h_amount).district key = none ↔ db.district key = none := by
  unfold DB.addDistrictYtd
  by_cases hkey : key = (w, d)
  · simp [hkey]
  · simp [Function.update_of_ne hkey]

theorem consistent_payment (hdb : Consistent db) : Consistent (payment fl srv t db).2 := by
  rcases transaction_cases (paymentBody fl srv t) with heq | hok
  · exact heq ▸ hdb
  obtain ⟨wrow, drow, c_id, row, hw, hd, -, heq⟩ := paymentBody_ok hok
  have hdist := hdb.district t.w_id t.d_id (by simp [hd])
  unfold payment
  rw [heq]
  constructor
  case w_ytd =>
    intro w wrow' hw'
    have hd' : (db.addYtd t.w_id t.h_amount).district (t.w_id, t.d_id) = some drow := hd
    have hsum : ∑ d ∈ Finset.Icc (1 : Int) DIST_PER_WARE,
        ((db.addYtd t.w_id t.h_amount).addDistrictYtd t.w_id t.d_id t.h_amount).d_ytd (w, d) =
          (∑ d ∈ Finset.Icc (1 : Int) DIST_PER_WARE, db.d_ytd (w, d)) +
            ∑ d ∈ Finset.Icc (1 : Int) DIST_PER_WARE,
              if (w, d) = (t.w_id, t.d_id) then t.h_amount else 0 := by
      rw [← Finset.sum_add_distrib]
      exact Finset.sum_congr rfl fun d _ => addDistrictYtd_d_ytd hd' t.h_amount (w, d)
    refine Eq.trans ?_ hsum.symm
    by_cases hwid : w = t.w_id
    · simp only [DB.addYtd, DB.addDistrictYtd, hwid, Function.update_self, hw, Option.map_some,
        Option.some.injEq] at hw'
      rw [← hw', hwid, ← hdb.w_ytd _ _ hw]
      simp only [Prod.mk.injEq, true_and, Finset.sum_ite_eq', Finset.mem_Icc, hdist, and_self,
        if_true]
    · simp only [DB.addYtd, DB.addDistrictYtd, Function.update_of_ne hwid] at hw'
      rw [← hdb.w_ytd w wrow' hw']
      simp [hwid]
  case d_ytd =>
    intro w d row' hrow'
    obtain ⟨old, hold, -, hytd⟩ := addDistrictYtd_district hrow'
    rw [hytd, paid_cons, hdb.d_ytd w d old hold]
  case district =>
    intro w d hne
    exact hdb.district w d fun hnone => hne (addDistrictYtd_eq_none.2 hnone)
  case orders =>
    intro w d o
    refine (hdb.orders w d o).trans ⟨?_, ?_⟩
    · rintro ⟨old, hold, ho⟩
      cases hrow' : ((db.addYtd t.w_id t.h_amount).addDistrictYtd t.w_id t.d_id
          t.h_amount).district (w, d) with
      | none => cases hold.symm.trans (addDistrictYtd_eq_none.1 hrow')
      | some row' =>
        obtain ⟨old', hold', hnext, -⟩ := addDistrictYtd_district hrow'
        obtain rfl : old = old' := Option.some.inj (hold.symm.trans hold')
        exact ⟨row', rfl, hnext ▸ ho⟩
    · rintro ⟨row', hrow', ho⟩
      obtain ⟨old, hold, hnext, -⟩ := addDistrictYtd_district hrow'
      exact ⟨old, hold, hnext ▸ ho⟩
  case new_orders =>
    intro w d row' hrow'
    obtain ⟨old, hold, hnext, -⟩ := addDistrictYtd_district hrow'
    rw [hnext]
    exact hdb.new_orders w d old hold
  case no_orders =>
    intro w d hnone
    exact hdb.no_orders w d (addDistrictYtd_eq_none.1 hnone)
  case carrier => exact hdb.carrier
  case lines => exact hdb.lines
  case delivered => exact hdb.delivered
  case no_lines => exact hdb.no_lines
  case stock => exact hdb.stock

end

/-! ## `delivery` -/

section

variable {t : Delivery}

/-- Where a district is delivered, its oldest new order is an order. -/
theorem deliverBody_ok {d_id : Nat} {ol_total ol_total' : Int}
    (h : deliverBody fl srv t d_id ol_total db = .ok (db', ol_total')) :
    ∃ order, db.orders (t.w_id, (d_id : Int), db.oldest t.w_id d_id) = some order ∧
      db' = { db with
        new_orders := Function.update db.new_orders (t.w_id, (d_id : Int))
          ((db.new_orders (t.w_id, (d_id : Int))).erase (db.oldest t.w_id d_id))
        orders := Function.update db.orders (t.w_id, (d_id : Int), db.oldest t.w_id d_id)
          (some { order with o_carrier_id := some t.o_carrier_id })
        order_line := Function.update db.order_line (t.w_id, (d_id : Int), db.oldest t.w_id d_id)
          ((db.order_line (t.w_id, (d_id : Int), db.oldest t.w_id d_id)).map
            fun row => { row with ol_delivery_d := some t.datetime })
        customer := Function.update db.customer (t.w_id, (d_id : Int), order.o_c_id)
          ((db.customer (t.w_id, (d_id : Int), order.o_c_id)).map fun row => { row with
            c_balance := fl.add row.c_balance ol_total'
            c_delivery_cnt := row.c_delivery_cnt + 1 }) } := by
  unfold deliverBody at h
  obtain ⟨db₁, hdelete, h⟩ := bind_eq_ok h
  obtain rfl := Server.exec_eq_ok hdelete
  obtain ⟨order, horder, h⟩ := bind_eq_ok h
  have horder : db.orders (t.w_id, (d_id : Int), db.oldest t.w_id d_id) = some order :=
    Server.fetch_eq_ok horder
  obtain ⟨db₂, hcarrier, h⟩ := bind_eq_ok h
  obtain rfl := Server.exec_eq_ok hcarrier
  obtain ⟨db₃, hlines, h⟩ := bind_eq_ok h
  obtain rfl := Server.exec_eq_ok hlines
  obtain ⟨total, -, h⟩ := bind_eq_ok h
  obtain ⟨db₄, hcustomer, h⟩ := bind_eq_ok h
  obtain rfl := Server.exec_eq_ok hcustomer
  cases h
  refine ⟨order, horder, ?_⟩
  simp only [horder, Option.map_some]

/-- The oldest new order is the first of them. -/
theorem Consistent.oldest_eq {d_id : Int} (hdb : Consistent db) (h : db.oldest t.w_id d_id ≠ 0) :
    ∃ row first, db.district (t.w_id, d_id) = some row ∧ db.oldest t.w_id d_id = first ∧
      1 ≤ first ∧ first < row.d_next_o_id ∧
      db.new_orders (t.w_id, d_id) = Finset.Ico first row.d_next_o_id := by
  unfold DB.oldest at h ⊢
  split at h
  · rename_i hne
    cases hrow : db.district (t.w_id, d_id) with
    | none => exact absurd (hdb.no_orders _ _ hrow) hne.ne_empty
    | some row =>
      obtain ⟨first, hfirst, -, hnew⟩ := hdb.new_orders _ _ _ hrow
      have hlt : first < row.d_next_o_id := by
        rw [hnew] at hne
        exact Finset.nonempty_Ico.1 hne
      refine ⟨row, first, rfl, ?_, hfirst, hlt, hnew⟩
      rw [dif_pos hne]
      refine le_antisymm (Finset.min'_le _ _ ?_) (Finset.le_min' _ _ _ fun o ho => ?_)
      · rw [hnew]
        exact Finset.left_mem_Ico.2 hlt
      · rw [hnew] at ho
        exact (Finset.mem_Ico.1 ho).1
  · exact absurd rfl h

theorem consistent_deliver {d_id : Nat} {ol_total ol_total' : Int} (hdb : Consistent db)
    (hold : db.oldest t.w_id d_id ≠ 0)
    (h : deliverBody fl srv t d_id ol_total db = .ok (db', ol_total')) : Consistent db' := by
  obtain ⟨row, first, hrow, hmin, hfirst, hlt, hnew⟩ := hdb.oldest_eq hold
  obtain ⟨order, horder, rfl⟩ := deliverBody_ok h
  rw [hmin] at horder ⊢
  have hne : ∀ w d o, (w, d) ≠ (t.w_id, (d_id : Int)) → (w, d, o) ≠ (t.w_id, (d_id : Int), first) :=
    fun w d o h h' => h (by simp_all)
  constructor
  case w_ytd => exact hdb.w_ytd
  case d_ytd => exact hdb.d_ytd
  case district => exact hdb.district
  case stock => exact hdb.stock
  case orders =>
    intro w d o
    rw [← hdb.orders w d o]
    by_cases hkey : (w, d, o) = (t.w_id, (d_id : Int), first)
    · simp [hkey, horder]
    · simp [Function.update_of_ne hkey]
  case new_orders =>
    intro w d drow hd
    by_cases hkey : (w, d) = (t.w_id, (d_id : Int))
    · obtain rfl : row = drow := Option.some.inj (hrow.symm.trans (hkey ▸ hd))
      refine ⟨first + 1, by omega, by omega, ?_⟩
      simp only [hkey, Function.update_self, hnew]
      ext o
      simp only [Finset.mem_erase, Finset.mem_Ico]
      omega
    · simp only [Function.update_of_ne hkey]
      exact hdb.new_orders w d drow hd
  case no_orders =>
    intro w d hd
    have hkey : (w, d) ≠ (t.w_id, (d_id : Int)) := by
      intro hkey
      cases (hkey ▸ hrow).symm.trans hd
    simp only [Function.update_of_ne hkey]
    exact hdb.no_orders w d hd
  case carrier =>
    intro w d o order' ho
    by_cases hkey : (w, d) = (t.w_id, (d_id : Int))
    · obtain ⟨rfl, rfl⟩ := Prod.mk.inj hkey
      simp only [Function.update_self, Finset.mem_erase] at ho ⊢
      by_cases hof : o = first
      · simp only [hof, Function.update_self, Option.some.injEq] at ho
        simp [← ho, hof]
      · rw [Function.update_of_ne (by simpa using hof)] at ho
        rw [hdb.carrier _ _ _ _ ho]
        simp [hof]
    · simp only [Function.update_of_ne hkey, Function.update_of_ne (hne w d o hkey)] at ho ⊢
      exact hdb.carrier w d o order' ho
  case lines =>
    intro key order' ho
    by_cases hkey : key = (t.w_id, (d_id : Int), first)
    · have hlines := hdb.lines _ _ horder
      simp only [hkey, Function.update_self, Option.some.injEq] at ho ⊢
      rw [← ho, List.map_map]
      exact hlines
    · simp only [Function.update_of_ne hkey] at ho ⊢
      exact hdb.lines key order' ho
  case delivered =>
    intro key order' ho l hl
    by_cases hkey : key = (t.w_id, (d_id : Int), first)
    · simp only [hkey, Function.update_self, Option.some.injEq, List.mem_map] at ho hl
      obtain ⟨l, -, rfl⟩ := hl
      simp [← ho]
    · simp only [Function.update_of_ne hkey] at ho hl
      exact hdb.delivered key order' ho l hl
  case no_lines =>
    intro key ho
    by_cases hkey : key = (t.w_id, (d_id : Int), first)
    · simp [hkey] at ho
    · simp only [Function.update_of_ne hkey] at ho ⊢
      exact hdb.no_lines key ho

theorem consistent_deliveryLoop (ds : List Nat) (ol_total : Int) (hdb : Consistent db) :
    Consistent (deliveryLoop fl srv t ds ol_total db).2 := by
  induction ds generalizing ol_total db with
  | nil => exact hdb
  | cons d_id ds ih =>
    unfold deliveryLoop
    split
    · exact hdb
    · split
      · exact ih ol_total hdb
      · rename_i hold
        split
        · rename_i db' ol_total' hok
          split
          · exact ih ol_total' (consistent_deliver hdb hold hok)
          · exact hdb
        · exact hdb

end

/-- **Every transaction keeps the tables consistent.** -/
theorem Txn.consistent_run (t : Txn) (ht : t.Drawn) (hdb : Consistent db) :
    Consistent (t.run fl srv db).2 := by
  cases t with
  | neword t => exact consistent_neword hdb ht
  | payment t => exact consistent_payment hdb
  | delivery t ol_total => exact consistent_deliveryLoop _ ol_total hdb

end DevTools.Tpcc
