import DevTools.Lib.MachineInt
import DevTools.Lib.SelectionSort
import Mathlib.Data.Finset.Max

/-!
# The writing transactions of the benchmark

`neword`, `payment` and `delivery` on the tables of `create_table.sql`. A table is a function from
its key, a row a structure with the columns that the transactions read or write; columns of text are
left out, except `c_data`. Decimal columns count hundredths.

Every statement may be refused by the server: `Server.ok` says so for the statement that the source
numbers `proceed`, in each turn of the loop around it. A refused statement, a `SELECT` of one row
that finds none and an `INSERT` of a key that is there end the transaction at `sqlerr` with a
rollback, and so does a refused commit. The server is in strict mode: a value outside of its
column's range is a refused statement and never another value in the table.

`delivery` skips a district without new orders before the commit. When the last districts are
skipped, the transaction that their `SELECT`s have opened stays open; it has read and not written.

`float` arithmetic is taken as a parameter.
-/

namespace DevTools.Tpcc

/-! ## Tables -/

structure Warehouse where
  w_tax : Int
  w_ytd : Int
  deriving DecidableEq, Repr

structure District where
  d_tax : Int
  d_ytd : Int
  d_next_o_id : Int
  deriving DecidableEq, Repr

structure Customer where
  /-- `c_credit` is "BC" -/
  badCredit : Bool
  c_discount : Int
  c_balance : Int
  c_delivery_cnt : Int
  c_data : List Char
  deriving DecidableEq, Repr

structure History where
  h_c_id : Int
  h_c_d_id : Int
  h_c_w_id : Int
  h_d_id : Int
  h_w_id : Int
  h_amount : Int
  deriving DecidableEq, Repr

structure Order where
  o_c_id : Int
  o_carrier_id : Option Int
  o_ol_cnt : Nat
  o_all_local : Int
  deriving DecidableEq, Repr

structure OrderLine where
  ol_number : Nat
  ol_i_id : Int
  ol_supply_w_id : Int
  /-- NULL, or a time -/
  ol_delivery_d : Option Int
  ol_quantity : Int
  ol_amount : Int
  deriving DecidableEq, Repr

/-- The tables. `new_orders` has the order ids of a district, `order_line` the lines of an order. -/
structure DB where
  warehouse : Int → Option Warehouse
  district : Int × Int → Option District
  customer : Int × Int × Int → Option Customer
  history : List History
  new_orders : Int × Int → Finset Int
  orders : Int × Int × Int → Option Order
  order_line : Int × Int × Int → List OrderLine
  /-- `i_price` -/
  item : Int → Option Int
  /-- `s_quantity`, by warehouse and item -/
  stock : Int × Int → Option Int

/-- What the server does during one transaction. -/
structure Server where
  /-- is the statement `proceed`, in that turn of the loop, carried out? -/
  ok : Nat → Nat → Bool
  /-- is the commit of that turn carried out? -/
  commit : Nat → Bool
  /-- the rows of `c_byname_p`: the customers of a last name, by first name -/
  byname : List Int

/-- The `float` arithmetic, on hundredths. -/
structure Floats where
  /-- `ol_quantity * i_price * (1 + w_tax + d_tax) * (1 - c_discount)` -/
  amount (ol_quantity i_price w_tax d_tax c_discount : Int) : Int
  /-- `c_balance - h_amount` -/
  sub (c_balance h_amount : Int) : Int
  /-- `c_balance + ol_total` -/
  add (c_balance ol_total : Int) : Int

/-- Why a transaction is rolled back. -/
inductive Stop
  | invaliditem
  | sqlerr (proceed : Nat)
  deriving DecidableEq, Repr

namespace Server

variable {α : Type}

/-- A statement that reads one row. -/
def fetch (srv : Server) (proceed turn : Nat) (row : Option α) : Except Stop α :=
  if srv.ok proceed turn then
    match row with
    | some a => .ok a
    | none => .error (.sqlerr proceed)
  else .error (.sqlerr proceed)

/-- The `SELECT` of an item. -/
def fetchItem (srv : Server) (turn : Nat) (row : Option Int) : Except Stop Int :=
  if srv.ok 6 turn then
    match row with
    | some i_price => .ok i_price
    | none => .error .invaliditem
  else .error (.sqlerr 6)

/-- A statement that writes. -/
def exec (srv : Server) (proceed turn : Nat) (db : DB) : Except Stop DB :=
  if srv.ok proceed turn then .ok db else .error (.sqlerr proceed)

/-- An `INSERT`, which fails if the key is there. -/
def insert (srv : Server) (proceed turn : Nat) (free : Prop) [Decidable free] (db : DB) :
    Except Stop DB :=
  if free then srv.exec proceed turn db else .error (.sqlerr proceed)

end Server

/-! ## `neword` -/

def MAXITEMS : Int := 100000

/-- The lines of a new order as they are passed to `neword`. -/
structure Lines where
  o_ol_cnt : Nat
  itemid : Nat → Int
  supware : Nat → Int
  qty : Nat → Int

/-- `(MAXITEMS + 1) * supware[k] + itemid[k]`. -/
def Lines.key (l : Lines) (k : Nat) : Int := wrap32 ((MAXITEMS + 1) * l.supware k + l.itemid k)

/-- `ol_num_seq` after "sort orders to avoid DeadLock". -/
def Lines.ol_num_seq (l : Lines) : Nat → Nat := selectionSort l.key l.o_ol_cnt

theorem Lines.ol_num_seq_lt (l : Lines) {k : Nat} (hk : k < l.o_ol_cnt) :
    l.ol_num_seq k < l.o_ol_cnt := by
  have hmem : l.ol_num_seq k ∈ (List.range l.o_ol_cnt).map l.ol_num_seq :=
    List.mem_map_of_mem (List.mem_range.2 hk)
  exact List.mem_range.1 ((selectionSort_perm l.key l.o_ol_cnt).mem_iff.1 hmem)

structure NewOrder where
  w_id : Int
  d_id : Int
  c_id : Int
  o_all_local : Int
  lines : Lines

/-- The stock that is left, filled up again when it would run out. -/
def restock (s_quantity ol_quantity : Int) : Int :=
  if s_quantity > ol_quantity then s_quantity - ol_quantity else s_quantity - ol_quantity + 91

/-- One turn of the loop over the lines; the order line is number `k + 1`. -/
def newordLine (fl : Floats) (srv : Server) (t : NewOrder) (c_discount w_tax d_tax o_id : Int)
    (db : DB) (k : Nat) : Except Stop DB := do
  let ol_supply_w_id := t.lines.supware (t.lines.ol_num_seq k)
  let ol_i_id := t.lines.itemid (t.lines.ol_num_seq k)
  let ol_quantity := t.lines.qty (t.lines.ol_num_seq k)
  let i_price ← srv.fetchItem k (db.item ol_i_id)
  let s_quantity ← srv.fetch 7 k (db.stock (ol_supply_w_id, ol_i_id))
  let db ← srv.exec 8 k { db with
    stock := Function.update db.stock (ol_supply_w_id, ol_i_id)
      (some (restock s_quantity ol_quantity)) }
  let key := (t.w_id, t.d_id, o_id)
  srv.insert 9 k (∀ l ∈ db.order_line key, l.ol_number ≠ k + 1) { db with
    order_line := Function.update db.order_line key (db.order_line key ++
      [{ ol_number := k + 1
         ol_i_id := ol_i_id
         ol_supply_w_id := ol_supply_w_id
         ol_delivery_d := none
         ol_quantity := ol_quantity
         ol_amount := fl.amount ol_quantity i_price w_tax d_tax c_discount }]) }

/-- `neword` up to the commit. -/
def newordBody (fl : Floats) (srv : Server) (t : NewOrder) (db : DB) : Except Stop DB := do
  let customer ← srv.fetch 1 0 (db.customer (t.w_id, t.d_id, t.c_id))
  let warehouse ← srv.fetch 1 0 (db.warehouse t.w_id)
  let district ← srv.fetch 2 0 (db.district (t.w_id, t.d_id))
  let o_id := district.d_next_o_id
  let db ← srv.exec 3 0 { db with
    district := Function.update db.district (t.w_id, t.d_id)
      (some { district with d_next_o_id := o_id + 1 }) }
  let db ← srv.insert 4 0 (db.orders (t.w_id, t.d_id, o_id) = none) { db with
    orders := Function.update db.orders (t.w_id, t.d_id, o_id)
      (some ⟨t.c_id, none, t.lines.o_ol_cnt, t.o_all_local⟩) }
  let db ← srv.insert 5 0 (o_id ∉ db.new_orders (t.w_id, t.d_id)) { db with
    new_orders := Function.update db.new_orders (t.w_id, t.d_id)
      (insert o_id (db.new_orders (t.w_id, t.d_id))) }
  (List.range t.lines.o_ol_cnt).foldlM
    (newordLine fl srv t customer.c_discount warehouse.w_tax district.d_tax o_id) db

/-- A body with its commit or rollback: what is returned, and the tables afterwards. -/
def transaction (srv : Server) (turn : Nat) (body : DB → Except Stop DB) (db : DB) : Int × DB :=
  match body db with
  | .ok db' => if srv.commit turn then (1, db') else (0, db)
  | .error .invaliditem => (1, db)
  | .error (.sqlerr _) => (0, db)

def neword (fl : Floats) (srv : Server) (t : NewOrder) (db : DB) : Int × DB :=
  transaction srv 0 (newordBody fl srv t) db

/-! ## `payment` -/

structure Payment where
  w_id : Int
  d_id : Int
  byname : Bool
  c_w_id : Int
  c_d_id : Int
  c_id : Int
  h_amount : Int

/-- The customer in the middle of the cursor; one that nobody is called like leaves `c_id` as it was
passed. -/
def Payment.customer (t : Payment) (srv : Server) : Int :=
  if t.byname then
    let namecnt := srv.byname.length
    let namecnt := if namecnt % 2 = 1 then namecnt + 1 else namecnt
    if namecnt / 2 = 0 then t.c_id else srv.byname.getD (namecnt / 2 - 1) t.c_id
  else t.c_id

/-- `UPDATE`s of one column of one row; there need not be such a row. -/
def DB.addYtd (db : DB) (w_id h_amount : Int) : DB :=
  { db with
    warehouse := Function.update db.warehouse w_id
      ((db.warehouse w_id).map fun row => { row with w_ytd := row.w_ytd + h_amount }) }

def DB.addDistrictYtd (db : DB) (w_id d_id h_amount : Int) : DB :=
  { db with
    district := Function.update db.district (w_id, d_id)
      ((db.district (w_id, d_id)).map fun row => { row with d_ytd := row.d_ytd + h_amount }) }

/-- The `UPDATE` of the customer; `row` is what has been read before. -/
def payCustomer (srv : Server) (key : Int × Int × Int) (row : Customer) (c_balance : Int)
    (db : DB) : Except Stop DB :=
  if row.badCredit then do
    -- `c_new_data` is made, but it is `c_data` that is bound to the statement
    let c_data ← srv.fetch 7 0 ((db.customer key).map Customer.c_data)
    srv.exec 8 0 { db with
      customer := Function.update db.customer key
        (some { row with c_balance := c_balance, c_data := c_data }) }
  else
    srv.exec 9 0 { db with
      customer := Function.update db.customer key (some { row with c_balance := c_balance }) }

/-- `payment` up to the commit. -/
def paymentBody (fl : Floats) (srv : Server) (t : Payment) (db : DB) : Except Stop DB := do
  let db ← srv.exec 1 0 (db.addYtd t.w_id t.h_amount)
  let _ ← srv.fetch 2 0 (db.warehouse t.w_id)
  let db ← srv.exec 3 0 (db.addDistrictYtd t.w_id t.d_id t.h_amount)
  let _ ← srv.fetch 4 0 (db.district (t.w_id, t.d_id))
  if t.byname ∧ srv.ok 5 0 = false then throw (.sqlerr 5)
  let c_id := t.customer srv
  let row ← srv.fetch 6 0 (db.customer (t.c_w_id, t.c_d_id, c_id))
  let db ← payCustomer srv (t.c_w_id, t.c_d_id, c_id) row (fl.sub row.c_balance t.h_amount) db
  srv.exec 10 0 { db with
    history := ⟨c_id, t.c_d_id, t.c_w_id, t.d_id, t.w_id, t.h_amount⟩ :: db.history }

def payment (fl : Floats) (srv : Server) (t : Payment) (db : DB) : Int × DB :=
  transaction srv 0 (paymentBody fl srv t) db

/-! ## `delivery` -/

def DIST_PER_WARE : Nat := 10

/-- `COALESCE(MIN(no_o_id),0)`. -/
def DB.oldest (db : DB) (w_id d_id : Int) : Int :=
  if h : (db.new_orders (w_id, d_id)).Nonempty then (db.new_orders (w_id, d_id)).min' h else 0

structure Delivery where
  w_id : Int
  o_carrier_id : Int
  datetime : Int

/-- One turn of `delivery` for a district that has new orders, up to the commit. `ol_total` is what
the variable held before: the `SUM` of no lines is NULL and does not change it. -/
def deliverBody (fl : Floats) (srv : Server) (t : Delivery) (d_id : Nat) (ol_total : Int)
    (db : DB) : Except Stop (DB × Int) := do
  let no_o_id := db.oldest t.w_id d_id
  let key := (t.w_id, (d_id : Int), no_o_id)
  let db ← srv.exec 2 d_id { db with
    new_orders := Function.update db.new_orders (t.w_id, d_id)
      ((db.new_orders (t.w_id, d_id)).erase no_o_id) }
  let order ← srv.fetch 3 d_id (db.orders key)
  let db ← srv.exec 4 d_id { db with
    orders := Function.update db.orders key
      ((db.orders key).map fun row => { row with o_carrier_id := some t.o_carrier_id }) }
  let db ← srv.exec 5 d_id { db with
    order_line := Function.update db.order_line key
      ((db.order_line key).map fun row => { row with ol_delivery_d := some t.datetime }) }
  let amounts := (db.order_line key).map OrderLine.ol_amount
  let ol_total ← srv.fetch 6 d_id (some (if amounts = [] then ol_total else amounts.sum))
  let c_key := (t.w_id, (d_id : Int), order.o_c_id)
  let db ← srv.exec 7 d_id { db with
    customer := Function.update db.customer c_key
      ((db.customer c_key).map fun row => { row with
        c_balance := fl.add row.c_balance ol_total
        c_delivery_cnt := row.c_delivery_cnt + 1 }) }
  return (db, ol_total)

/-- The loop over the districts. Each district is a transaction of its own, and those behind a
failure are not tried. -/
def deliveryLoop (fl : Floats) (srv : Server) (t : Delivery) :
    List Nat → Int → DB → Int × DB
  | [], _, db => (1, db)
  | d_id :: rest, ol_total, db =>
    if srv.ok 1 d_id = false then (0, db)
    else if db.oldest t.w_id d_id = 0 then deliveryLoop fl srv t rest ol_total db
    else match deliverBody fl srv t d_id ol_total db with
      | .ok (db', ol_total') =>
        if srv.commit d_id then deliveryLoop fl srv t rest ol_total' db' else (0, db)
      | .error _ => (0, db)

/-- `delivery`; `ol_total` is what is in the variable at the start. -/
def delivery (fl : Floats) (srv : Server) (t : Delivery) (ol_total : Int) (db : DB) : Int × DB :=
  deliveryLoop fl srv t (List.range' 1 DIST_PER_WARE) ol_total db

/-! ## Runs -/

inductive Txn
  | neword (t : NewOrder)
  | payment (t : Payment)
  | delivery (t : Delivery) (ol_total : Int)

/-- A transaction with what the server does meanwhile. -/
def Txn.run (fl : Floats) (srv : Server) : Txn → DB → Int × DB
  | .neword t, db => Tpcc.neword fl srv t db
  | .payment t, db => Tpcc.payment fl srv t db
  | .delivery t ol_total, db => Tpcc.delivery fl srv t ol_total db

end DevTools.Tpcc
