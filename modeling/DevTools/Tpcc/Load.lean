import DevTools.Tpcc.Consistency
import DevTools.Tpcc.Permutation

/-!
# From the loader on

`load.c` fills empty tables: `LoadItems`, `LoadWare`, `LoadCust` and `LoadOrd` for the warehouses
from `min_ware` to `max_ware`. What is drawn by `rand` is a parameter. A pass that fails is rolled
back and begun again, so the model has the passes that succeed.

**Theorem (`consistent_reach`).** In every run of new orders, payments and deliveries, one
transaction after the other, on tables that the loader has filled, the tables are `Consistent`,
whatever the driver draws and whichever statements and commits the server refuses.

**Theorem (`c_data_kept`).** In such a run no `c_data` is ever changed, although `payment` makes a
new one for customers with bad credit.
-/

namespace DevTools.Tpcc

/-! ## The loader -/

def CUST_PER_DIST : Nat := 3000

/-- What is drawn for the columns that are not constant. -/
structure Draws where
  i_price : Int → Int
  w_tax : Int → Int
  s_quantity : Int × Int → Int
  d_tax : Int × Int → Int
  badCredit : Int × Int × Int → Bool
  c_discount : Int × Int × Int → Int
  c_data : Int × Int × Int → List Char
  /-- what `InitPermutation` draws for a district -/
  rand : Int × Int → Nat → Nat
  o_carrier_id : Int × Int × Int → Int
  o_ol_cnt : Int × Int × Int → Nat
  ol_i_id : Int × Int × Int → Nat → Int
  tmp_float : Int × Int × Int → Nat → Int
  timestamp : Int

/-- `s_quantity = RandomNumber(10L, 100L)`. -/
def Draws.InRange (dr : Draws) : Prop := ∀ key, 10 ≤ dr.s_quantity key ∧ dr.s_quantity key ≤ 100

/-- The values of a variable that counts from 1 to `n`. -/
def upTo (n : Nat) : List Int := (List.range' 1 n).map Int.ofNat

/-- `w_id` from `min_ware` to `max_ware`. -/
def wares (min_ware max_ware : Int) : List Int :=
  (List.range (max_ware - min_ware + 1).toNat).map fun k : Nat => min_ware + (k : Int)

/-- The two loops over warehouses and districts. -/
def districts (ws : List Int) : List (Int × Int) :=
  ws.flatMap fun w => (upTo DIST_PER_WARE).map fun d => (w, d)

def DB.empty : DB where
  warehouse _ := none
  district _ := none
  customer _ := none
  history := []
  new_orders _ := ∅
  orders _ := none
  order_line _ := []
  item _ := none
  stock _ := none

def LoadItems (dr : Draws) (db : DB) : DB :=
  (upTo MAXITEMS.toNat).foldl (fun db i_id => { db with
    item := Function.update db.item i_id (some (dr.i_price i_id)) }) db

/-- `Stock`. -/
def LoadStock (dr : Draws) (w_id : Int) (db : DB) : DB :=
  (upTo MAXITEMS.toNat).foldl (fun db i_id => { db with
    stock := Function.update db.stock (w_id, i_id) (some (dr.s_quantity (w_id, i_id))) }) db

/-- `District`. -/
def LoadDistrict (dr : Draws) (w_id : Int) (db : DB) : DB :=
  (upTo DIST_PER_WARE).foldl (fun db d_id => { db with
    district := Function.update db.district (w_id, d_id)
      (some ⟨dr.d_tax (w_id, d_id), 3000000, 3001⟩) }) db

def LoadWare (dr : Draws) (ws : List Int) (db : DB) : DB :=
  ws.foldl (fun db w_id => LoadDistrict dr w_id (LoadStock dr w_id { db with
    warehouse := Function.update db.warehouse w_id (some ⟨dr.w_tax w_id, 30000000⟩) })) db

/-- `Customer`. -/
def LoadCustomer (dr : Draws) (db : DB) (key : Int × Int) : DB :=
  (upTo CUST_PER_DIST).foldl (fun db c_id => { db with
    customer := Function.update db.customer (key.1, key.2, c_id)
      (some ⟨dr.badCredit (key.1, key.2, c_id), dr.c_discount (key.1, key.2, c_id), -1000, 0,
        dr.c_data (key.1, key.2, c_id)⟩)
    history := ⟨c_id, key.2, key.1, key.2, key.1, 1000⟩ :: db.history }) db

def LoadCust (dr : Draws) (ws : List Int) (db : DB) : DB :=
  (districts ws).foldl (LoadCustomer dr) db

/-- The row of `orders`; the order `o_id` has the customer of the `o_id`-th `GetPermutation`. -/
def Draws.order (dr : Draws) (key : Int × Int × Int) : Order where
  o_c_id := (InitPermutation (dr.rand (key.1, key.2.1))).nums (key.2.2 - 1).toNat
  o_carrier_id := if key.2.2 > 2100 then none else some (dr.o_carrier_id key)
  o_ol_cnt := dr.o_ol_cnt key
  o_all_local := 1

/-- The row of `order_line` with number `k + 1`. -/
def Draws.line (dr : Draws) (key : Int × Int × Int) (k : Nat) : OrderLine where
  ol_number := k + 1
  ol_i_id := dr.ol_i_id key k
  ol_supply_w_id := key.1
  ol_delivery_d := if key.2.2 > 2100 then none else some dr.timestamp
  ol_quantity := 5
  ol_amount := if key.2.2 > 2100 then dr.tmp_float key k else 0

/-- A turn of the loop of `Orders`: the order, the new order if it is not delivered yet, and the
lines. -/
def loadOrder (dr : Draws) (w_id d_id : Int) (db : DB) (o_id : Int) : DB :=
  let key := (w_id, d_id, o_id)
  let db := { db with orders := Function.update db.orders key (some (dr.order key)) }
  let db := if o_id > 2100 then { db with
    new_orders := Function.update db.new_orders (w_id, d_id)
      (insert o_id (db.new_orders (w_id, d_id))) } else db
  (List.range (dr.o_ol_cnt key)).foldl (fun db k => { db with
    order_line := Function.update db.order_line key (db.order_line key ++ [dr.line key k]) }) db

/-- `Orders`. -/
def LoadOrders (dr : Draws) (db : DB) (key : Int × Int) : DB :=
  (upTo ORD_PER_DIST).foldl (loadOrder dr key.1 key.2) db

def LoadOrd (dr : Draws) (ws : List Int) (db : DB) : DB :=
  (districts ws).foldl (LoadOrders dr) db

/-- `main` of `load.c`. -/
def load (dr : Draws) (min_ware max_ware : Int) : DB :=
  let ws := wares min_ware max_ware
  LoadOrd dr ws (LoadCust dr ws (LoadWare dr ws (LoadItems dr .empty)))

/-! ## Loops -/

/-- What holds of a loop after each turn, with the values that its variable has had. -/
theorem foldl_invariant {α β : Type} {f : β → α → β} {b : β} {l : List α} (I : List α → β → Prop)
    (h0 : I [] b) (hstep : ∀ seen x rest b, l = seen ++ x :: rest → I seen b →
      I (seen ++ [x]) (f b x)) : I l (l.foldl f b) := by
  have hall : ∀ rest seen b, l = seen ++ rest → I seen b → I l (rest.foldl f b) := by
    intro rest
    induction rest with
    | nil =>
      intro seen b hl h
      rw [List.append_nil] at hl
      exact hl ▸ h
    | cons x rest ih =>
      intro seen b hl h
      exact ih (seen ++ [x]) (f b x) (by simpa using hl) (hstep seen x rest b hl h)
  exact hall l [] b rfl h0

theorem mem_upTo {n : Nat} {x : Int} : x ∈ upTo n ↔ 1 ≤ x ∧ x ≤ n := by
  unfold upTo
  rw [List.mem_map]
  constructor
  · rintro ⟨k, hk, rfl⟩
    rw [List.mem_range'_1] at hk
    simp only [Int.ofNat_eq_natCast]
    omega
  · intro h
    refine ⟨x.toNat, ?_, ?_⟩
    · rw [List.mem_range'_1]
      omega
    · simp only [Int.ofNat_eq_natCast]
      omega

theorem nodup_upTo (n : Nat) : (upTo n).Nodup :=
  (List.nodup_range' 1).map fun _ _ h => Int.ofNat.inj h

theorem mem_districts {ws : List Int} {w d : Int} :
    (w, d) ∈ districts ws ↔ w ∈ ws ∧ 1 ≤ d ∧ d ≤ DIST_PER_WARE := by
  simp [districts, mem_upTo]

theorem nodup_wares (min_ware max_ware : Int) : (wares min_ware max_ware).Nodup := by
  refine List.nodup_range.map fun a b h => ?_
  simpa using h

theorem nodup_districts {ws : List Int} (hws : ws.Nodup) : (districts ws).Nodup := by
  refine List.nodup_flatMap.2 ⟨fun w _ => (nodup_upTo _).map fun _ _ h => (Prod.mk.inj h).2, ?_⟩
  refine hws.imp fun {w w'} hne => ?_
  intro key hkey hkey'
  obtain ⟨d, -, rfl⟩ := List.mem_map.1 hkey
  obtain ⟨d', -, heq⟩ := List.mem_map.1 hkey'
  exact hne (Prod.mk.inj heq).1.symm

/-! ## Warehouses -/

variable {dr : Draws} {ws : List Int} {db : DB}

theorem LoadItems_eq (dr : Draws) (db : DB) :
    ∃ item, LoadItems dr db = { db with item := item } := by
  unfold LoadItems
  refine foldl_invariant (fun _ db' => ∃ item, db' = { db with item := item }) ⟨db.item, rfl⟩ ?_
  rintro seen i_id rest db' - ⟨item, rfl⟩
  exact ⟨_, rfl⟩

theorem LoadStock_eq (hdr : dr.InRange) (w : Int) (db : DB)
    (hdb : ∀ k q, db.stock k = some q → 1 ≤ q ∧ q ≤ 100) :
    ∃ stock, LoadStock dr w db = { db with stock := stock } ∧
      ∀ k q, stock k = some q → 1 ≤ q ∧ q ≤ 100 := by
  unfold LoadStock
  refine foldl_invariant (fun _ db' => ∃ stock, db' = { db with stock := stock } ∧
    ∀ k q, stock k = some q → 1 ≤ q ∧ q ≤ 100) ⟨db.stock, rfl, hdb⟩ ?_
  rintro seen i_id rest db' - ⟨stock, rfl, hstock⟩
  refine ⟨_, rfl, fun k q hk => ?_⟩
  by_cases hkey : k = (w, i_id)
  · simp only [hkey, Function.update_self, Option.some.injEq] at hk
    have := hdr (w, i_id)
    omega
  · simp only [Function.update_of_ne hkey] at hk
    exact hstock k q hk

theorem LoadDistrict_eq (dr : Draws) (w : Int) (db : DB) :
    ∃ district, LoadDistrict dr w db = { db with district := district } ∧
      ∀ w' d, district (w', d) = if w' = w ∧ d ∈ upTo DIST_PER_WARE then
        some ⟨dr.d_tax (w', d), 3000000, 3001⟩ else db.district (w', d) := by
  unfold LoadDistrict
  refine foldl_invariant (fun seen db' => ∃ district, db' = { db with district := district } ∧
    ∀ w' d, district (w', d) = if w' = w ∧ d ∈ seen then
      some ⟨dr.d_tax (w', d), 3000000, 3001⟩ else db.district (w', d))
    ⟨db.district, rfl, by simp⟩ ?_
  rintro seen d_id rest db' - ⟨district, rfl, hdistrict⟩
  refine ⟨_, rfl, fun w' d => ?_⟩
  by_cases hkey : (w', d) = (w, d_id)
  · obtain ⟨rfl, rfl⟩ := Prod.mk.inj hkey
    simp
  · have hd : w' = w → d ≠ d_id := fun hw hd => hkey (by rw [hw, hd])
    simp only [Function.update_of_ne hkey, hdistrict]
    by_cases hw : w' = w
    · simp [hw, hd hw]
    · simp [hw]

/-- The tables of the warehouses `ws`; nothing is ordered yet. -/
structure Wared (dr : Draws) (ws : List Int) (db : DB) : Prop where
  rest : db = { DB.empty with
    item := db.item, warehouse := db.warehouse, district := db.district, stock := db.stock }
  warehouse : ∀ w row, db.warehouse w = some row → row.w_ytd = 30000000 ∧ w ∈ ws
  district : ∀ w d, db.district (w, d) = if (w, d) ∈ districts ws then
    some ⟨dr.d_tax (w, d), 3000000, 3001⟩ else none
  stock : ∀ k q, db.stock k = some q → 1 ≤ q ∧ q ≤ 100

theorem wared_load (hdr : dr.InRange) : Wared dr ws (LoadWare dr ws (LoadItems dr .empty)) := by
  obtain ⟨item, hitem⟩ := LoadItems_eq dr .empty
  rw [hitem]
  unfold LoadWare
  refine foldl_invariant (Wared dr) ⟨rfl, nofun, by simp [districts, DB.empty], nofun⟩ ?_
  rintro seen w rest db' - hdb
  obtain ⟨stock, hstock, hrange⟩ := LoadStock_eq hdr w { db' with
    warehouse := Function.update db'.warehouse w (some ⟨dr.w_tax w, 30000000⟩) } hdb.stock
  rw [hstock]
  obtain ⟨district, hdistrict, hrows⟩ := LoadDistrict_eq dr w { db' with
    warehouse := Function.update db'.warehouse w (some ⟨dr.w_tax w, 30000000⟩)
    stock := stock }
  rw [hdistrict]
  refine ⟨?_, ?_, ?_, hrange⟩
  · rw [hdb.rest]
  · intro w' row hrow
    by_cases hw : w' = w
    · simp only [hw, Function.update_self, Option.some.injEq] at hrow
      exact ⟨by rw [← hrow], by simp [hw]⟩
    · simp only [Function.update_of_ne hw] at hrow
      obtain ⟨hytd, hmem⟩ := hdb.warehouse w' row hrow
      exact ⟨hytd, List.mem_append_left _ hmem⟩
  · intro w' d
    simp only [hrows, hdb.district, mem_districts, mem_upTo, List.mem_append, List.mem_singleton]
    by_cases hw : w' = w
    · by_cases hd : 1 ≤ d ∧ d ≤ DIST_PER_WARE
      · simp [hw, hd]
      · simp [hd]
    · simp [hw]

/-! ## Customers -/

theorem LoadCustomer_eq (dr : Draws) (db : DB) (key : Int × Int) :
    ∃ customer history, LoadCustomer dr db key = { db with
      customer := customer, history := history } ∧
      ∀ w d, paid history w d = paid db.history w d + if (w, d) = key then 3000000 else 0 := by
  have hlen : ((upTo CUST_PER_DIST).length : Int) * 1000 = 3000000 := by
    simp [upTo, CUST_PER_DIST]
  rw [← hlen]
  unfold LoadCustomer
  refine foldl_invariant (fun seen db' => ∃ customer history, db' = { db with
    customer := customer, history := history } ∧ ∀ w d, paid history w d =
      paid db.history w d + if (w, d) = key then (seen.length : Int) * 1000 else 0)
    ⟨db.customer, db.history, rfl, by simp⟩ ?_
  rintro seen c_id rest db' - ⟨customer, history, rfl, hpaid⟩
  refine ⟨_, _, rfl, fun w d => ?_⟩
  simp only [paid_cons, hpaid, List.length_append, List.length_singleton, Prod.mk.eta]
  split_ifs <;> push_cast <;> omega

theorem LoadCust_eq (dr : Draws) (hws : ws.Nodup) (hdb : db.history = []) :
    ∃ customer history, LoadCust dr ws db = { db with
      customer := customer, history := history } ∧
      ∀ w d, paid history w d = if (w, d) ∈ districts ws then 3000000 else 0 := by
  have hnodup := nodup_districts hws
  unfold LoadCust
  refine foldl_invariant (fun seen db' => ∃ customer history, db' = { db with
    customer := customer, history := history } ∧ ∀ w d, paid history w d =
      if (w, d) ∈ seen then 3000000 else 0)
    ⟨db.customer, db.history, rfl, by simp [hdb, paid]⟩ ?_
  rintro seen key rest db' hl ⟨customer, history, rfl, hpaid⟩
  obtain ⟨customer', history', heq, hpaid'⟩ := LoadCustomer_eq dr
    { db with customer := customer, history := history } key
  refine ⟨customer', history', heq, fun w d => ?_⟩
  have hnew : key ∉ seen := by
    rw [hl] at hnodup
    have hdisjoint := (List.nodup_append.1 hnodup).2.2
    exact fun hmem => hdisjoint key hmem key List.mem_cons_self rfl
  simp only [hpaid', hpaid, List.mem_append, List.mem_singleton]
  by_cases hkey : (w, d) = key
  · simp [hkey, hnew]
  · simp [hkey]

/-! ## Orders -/

def Draws.lines (dr : Draws) (key : Int × Int × Int) : List OrderLine :=
  (List.range (dr.o_ol_cnt key)).map (dr.line key)

theorem loadOrder_eq (dr : Draws) (w d : Int) (db : DB) (o : Int) :
    loadOrder dr w d db o = { db with
      orders := Function.update db.orders (w, d, o) (some (dr.order (w, d, o)))
      new_orders := if o > 2100 then Function.update db.new_orders (w, d)
        (insert o (db.new_orders (w, d))) else db.new_orders
      order_line := Function.update db.order_line (w, d, o)
        (db.order_line (w, d, o) ++ dr.lines (w, d, o)) } := by
  have hlines : ∀ n (db : DB), (List.range n).foldl (fun db k => { db with
      order_line := Function.update db.order_line (w, d, o)
        (db.order_line (w, d, o) ++ [dr.line (w, d, o) k]) }) db = { db with
      order_line := Function.update db.order_line (w, d, o)
        (db.order_line (w, d, o) ++ (List.range n).map (dr.line (w, d, o))) } := by
    intro n db
    induction n with
    | zero => simp
    | succ n ih => simp [List.range_succ, List.foldl_append, ih]
  unfold loadOrder
  rw [hlines]
  split_ifs <;> rfl

/-- The rows of the orders `os` of one district have been added. -/
structure OrdersPut (dr : Draws) (key : Int × Int) (os : List Int) (db db' : DB) : Prop where
  rest : db' = { db with
    orders := db'.orders, new_orders := db'.new_orders, order_line := db'.order_line }
  orders : ∀ w d o, db'.orders (w, d, o) =
    if (w, d) = key ∧ o ∈ os then some (dr.order (w, d, o)) else db.orders (w, d, o)
  new_orders : ∀ w d o, o ∈ db'.new_orders (w, d) ↔
    (w, d) = key ∧ o ∈ os ∧ 2100 < o ∨ o ∈ db.new_orders (w, d)
  order_line : ∀ w d o, db'.order_line (w, d, o) =
    if (w, d) = key ∧ o ∈ os then dr.lines (w, d, o) else db.order_line (w, d, o)

theorem mem_insert_new {new_orders : Int × Int → Finset Int} {w d o w' d' o' : Int} :
    (o ∈ (if o' > 2100 then Function.update new_orders (w', d') (insert o' (new_orders (w', d')))
      else new_orders) (w, d)) ↔
      (w, d) = (w', d') ∧ o = o' ∧ 2100 < o ∨ o ∈ new_orders (w, d) := by
  split_ifs with ho
  · by_cases hkey : (w, d) = (w', d')
    · rw [hkey, Function.update_self, Finset.mem_insert]
      refine or_congr_left ⟨?_, fun h => h.2.1⟩
      rintro rfl
      exact ⟨rfl, rfl, ho⟩
    · simp [hkey]
  · refine ⟨.inr, fun h => h.resolve_left ?_⟩
    rintro ⟨-, rfl, hlt⟩
    exact ho hlt

theorem ordersPut_order {w d o_id : Int} {os : List Int} {db db' : DB}
    (h : OrdersPut dr (w, d) os db db') (hempty : db'.order_line (w, d, o_id) = []) :
    OrdersPut dr (w, d) (os ++ [o_id]) db (loadOrder dr w d db' o_id) := by
  rw [loadOrder_eq]
  have hne : ∀ {w' d' o}, (w', d', o) ≠ (w, d, o_id) → ((w', d') = (w, d) ∧ o ∈ os ++ [o_id] ↔
      (w', d') = (w, d) ∧ o ∈ os) := by
    intro w' d' o hkey
    refine and_congr_right fun hk => ?_
    have ho : o ≠ o_id := fun ho => hkey (by rw [(Prod.mk.inj hk).1, (Prod.mk.inj hk).2, ho])
    simp [ho]
  constructor
  case rest => rw [h.rest]
  case orders =>
    intro w' d' o
    by_cases hkey : (w', d', o) = (w, d, o_id)
    · simp_all
    · simp only [Function.update_of_ne hkey, h.orders, hne hkey]
  case new_orders =>
    intro w' d' o
    rw [mem_insert_new, h.new_orders, List.mem_append, List.mem_singleton]
    tauto
  case order_line =>
    intro w' d' o
    by_cases hkey : (w', d', o) = (w, d, o_id)
    · simp_all
    · simp only [Function.update_of_ne hkey, h.order_line, hne hkey]

theorem ordersPut_load (dr : Draws) (db : DB) (key : Int × Int)
    (hdb : ∀ o, db.order_line (key.1, key.2, o) = []) :
    OrdersPut dr key (upTo ORD_PER_DIST) db (LoadOrders dr db key) := by
  have hnodup := nodup_upTo ORD_PER_DIST
  unfold LoadOrders
  refine foldl_invariant (fun os db' => OrdersPut dr key os db db') ⟨rfl, ?_, ?_, ?_⟩ ?_
  · simp
  · simp
  · simp
  · intro os o_id rest db' hl h
    have hnew : o_id ∉ os := by
      rw [hl] at hnodup
      exact fun hmem => (List.nodup_append.1 hnodup).2.2 o_id hmem o_id List.mem_cons_self rfl
    refine ordersPut_order h ?_
    rw [h.order_line, if_neg (fun h => hnew h.2), hdb]

/-- The rows of the orders in the districts `ds`. -/
structure Ordered (dr : Draws) (ds : List (Int × Int)) (db db' : DB) : Prop where
  rest : db' = { db with
    orders := db'.orders, new_orders := db'.new_orders, order_line := db'.order_line }
  orders : ∀ w d o, db'.orders (w, d, o) =
    if (w, d) ∈ ds ∧ o ∈ upTo ORD_PER_DIST then some (dr.order (w, d, o)) else none
  new_orders : ∀ w d o, o ∈ db'.new_orders (w, d) ↔
    (w, d) ∈ ds ∧ o ∈ upTo ORD_PER_DIST ∧ 2100 < o
  order_line : ∀ w d o, db'.order_line (w, d, o) =
    if (w, d) ∈ ds ∧ o ∈ upTo ORD_PER_DIST then dr.lines (w, d, o) else []

theorem ordered_load (dr : Draws) (hws : ws.Nodup) (db : DB)
    (horders : ∀ key, db.orders key = none) (hnew : ∀ key, db.new_orders key = ∅)
    (hlines : ∀ key, db.order_line key = []) :
    Ordered dr (districts ws) db (LoadOrd dr ws db) := by
  have hnodup := nodup_districts hws
  unfold LoadOrd
  refine foldl_invariant (fun ds db' => Ordered dr ds db db') ⟨rfl, ?_, ?_, ?_⟩ ?_
  · simp [horders]
  · simp [hnew]
  · simp [hlines]
  · intro ds key rest db' hl h
    have hkey : key ∉ ds := by
      rw [hl] at hnodup
      exact fun hmem => (List.nodup_append.1 hnodup).2.2 key hmem key List.mem_cons_self rfl
    have hput := ordersPut_load dr db' key fun o => by
      rw [h.order_line, if_neg fun hmem => hkey hmem.1]
    have hmem : ∀ w d, (w, d) ∈ ds ++ [key] ↔ (w, d) = key ∨ (w, d) ∈ ds := by
      intro w d
      rw [List.mem_append, List.mem_singleton]
      exact Or.comm
    constructor
    case rest =>
      rw [hput.rest, h.rest]
    case orders =>
      intro w d o
      simp only [hput.orders, h.orders, hmem]
      by_cases hk : (w, d) = key
      · simp [hk, hkey]
      · simp [hk]
    case new_orders =>
      intro w d o
      rw [hput.new_orders, h.new_orders, hmem]
      tauto
    case order_line =>
      intro w d o
      simp only [hput.order_line, h.order_line, hmem]
      by_cases hk : (w, d) = key
      · simp [hk, hkey]
      · simp [hk]

/-! ## What the loader leaves behind -/

theorem Draws.lines_numbers (dr : Draws) (key : Int × Int × Int) :
    (dr.lines key).map OrderLine.ol_number = List.range' 1 (dr.o_ol_cnt key) := by
  rw [Draws.lines, List.map_map, List.range'_eq_map_range]
  exact List.map_congr_left fun k _ => Nat.add_comm k 1

theorem Draws.order_new (dr : Draws) (key : Int × Int × Int) :
    (dr.order key).o_carrier_id = none ↔ 2100 < key.2.2 := by
  show (if key.2.2 > 2100 then none else some (dr.o_carrier_id key)) = none ↔ _
  split_ifs with h <;> simp [h]

theorem Draws.line_new (dr : Draws) (key : Int × Int × Int) (k : Nat) :
    (dr.line key k).ol_delivery_d = none ↔ 2100 < key.2.2 := by
  show (if key.2.2 > 2100 then none else some dr.timestamp) = none ↔ _
  split_ifs with h <;> simp [h]

theorem consistent_loaded {db' : DB} (customer : Int × Int × Int → Option Customer)
    {history : List History} (hw : Wared dr ws db)
    (hpaid : ∀ w d, paid history w d = if (w, d) ∈ districts ws then 3000000 else 0)
    (hord : Ordered dr (districts ws) { db with customer := customer, history := history } db') :
    Consistent db' := by
  have hdistrict : ∀ w d, db'.district (w, d) = if (w, d) ∈ districts ws then
      some ⟨dr.d_tax (w, d), 3000000, 3001⟩ else none := by
    intro w d
    rw [← hw.district, hord.rest]
  have hmem : ∀ {o : Int}, o ∈ upTo ORD_PER_DIST ↔ 1 ≤ o ∧ o < 3001 := by
    intro o
    rw [mem_upTo]
    unfold ORD_PER_DIST
    omega
  constructor
  case w_ytd =>
    intro w row hrow
    rw [hord.rest] at hrow
    obtain ⟨hytd, hin⟩ := hw.warehouse w row hrow
    have hall : ∀ d ∈ Finset.Icc (1 : Int) DIST_PER_WARE, db'.d_ytd (w, d) = 3000000 := by
      intro d hd
      rw [DB.d_ytd, hdistrict, if_pos (mem_districts.2 ⟨hin, Finset.mem_Icc.1 hd⟩)]
      rfl
    rw [hytd, Finset.sum_congr rfl hall, Finset.sum_const, Int.card_Icc]
    rfl
  case d_ytd =>
    intro w d row hrow
    rw [hdistrict] at hrow
    split_ifs at hrow with hin
    have hhistory : db'.history = history := by rw [hord.rest]
    rw [hhistory, hpaid, if_pos hin, ← Option.some.inj hrow]
  case district =>
    intro w d hne
    rw [hdistrict] at hne
    by_cases hin : (w, d) ∈ districts ws
    · exact (mem_districts.1 hin).2
    · rw [if_neg hin] at hne
      exact absurd rfl hne
  case orders =>
    intro w d o
    rw [hord.orders, hdistrict]
    by_cases hin : (w, d) ∈ districts ws
    · simp [hin, hmem]
    · simp [hin]
  case new_orders =>
    intro w d row hrow
    rw [hdistrict] at hrow
    split_ifs at hrow with hin
    rw [← Option.some.inj hrow]
    refine ⟨2101, by decide, show (2101 : Int) ≤ 3001 by decide, ?_⟩
    ext o
    rw [hord.new_orders, Finset.mem_Ico, hmem]
    simp only [hin, true_and]
    omega
  case no_orders =>
    intro w d hnone
    rw [hdistrict] at hnone
    split_ifs at hnone with hin
    refine Finset.eq_empty_of_forall_notMem fun o ho => ?_
    exact hin ((hord.new_orders w d o).1 ho).1
  case carrier =>
    intro w d o order ho
    rw [hord.orders] at ho
    split_ifs at ho with hin
    rw [hord.new_orders, ← Option.some.inj ho, dr.order_new]
    exact ⟨fun hlt => ⟨hin.1, hin.2, hlt⟩, fun h => h.2.2⟩
  case lines =>
    rintro ⟨w, d, o⟩ order ho
    rw [hord.orders] at ho
    split_ifs at ho with hin
    rw [hord.order_line, if_pos hin, Draws.lines_numbers, ← Option.some.inj ho]
    rfl
  case delivered =>
    rintro ⟨w, d, o⟩ order ho l hl
    rw [hord.orders] at ho
    split_ifs at ho with hin
    rw [hord.order_line, if_pos hin] at hl
    obtain ⟨k, -, rfl⟩ := List.mem_map.1 hl
    rw [← Option.some.inj ho, dr.order_new, dr.line_new]
  case no_lines =>
    rintro ⟨w, d, o⟩ ho
    rw [hord.orders] at ho
    split_ifs at ho with hin
    rw [hord.order_line, if_neg hin]
  case stock =>
    intro key q hq
    rw [hord.rest] at hq
    exact hw.stock key q hq

theorem consistent_load (hdr : dr.InRange) (min_ware max_ware : Int) :
    Consistent (load dr min_ware max_ware) := by
  have hws := nodup_wares min_ware max_ware
  have hw : Wared dr (wares min_ware max_ware)
      (LoadWare dr (wares min_ware max_ware) (LoadItems dr .empty)) := wared_load hdr
  have hhistory : (LoadWare dr (wares min_ware max_ware) (LoadItems dr .empty)).history = [] := by
    rw [hw.rest]
    rfl
  obtain ⟨customer, history, hcust, hpaid⟩ := LoadCust_eq dr hws hhistory
  refine consistent_loaded customer hw hpaid ?_
  rw [← hcust]
  refine ordered_load dr hws _ ?_ ?_ ?_
  · intro key
    rw [hcust, hw.rest]
    rfl
  · intro key
    rw [hcust, hw.rest]
    rfl
  · intro key
    rw [hcust, hw.rest]
    rfl

/-! ## Runs -/

variable {fl : Floats} {srv : Server} {min_ware max_ware : Int}

/-- One transaction after the other, on loaded tables. -/
def lts (fl : Floats) (dr : Draws) (min_ware max_ware : Int) : LTS DB (Server × Txn) where
  init db := db = load dr min_ware max_ware
  step db a db' := a.2.Drawn ∧ db' = (a.2.run fl a.1 db).2

/-- **The tables stay consistent.** -/
theorem consistent_reach (hdr : dr.InRange) (h : (lts fl dr min_ware max_ware).Reach db) :
    Consistent db := by
  refine LTS.Reach.invariant (T := lts fl dr min_ware max_ware) (I := Consistent) ?_ ?_ h
  · rintro db rfl
    exact consistent_load hdr min_ware max_ware
  · rintro db a db' hdb ⟨ht, rfl⟩
    exact a.2.consistent_run ht hdb

/-- A warehouse whose stock is 50 of everything, and a payment to it. -/
def sampleDraws : Draws where
  i_price _ := 100
  w_tax _ := 0
  s_quantity _ := 50
  d_tax _ := 0
  badCredit _ := true
  c_discount _ := 0
  c_data _ := ['a', 'b']
  rand _ _ := 0
  o_carrier_id _ := 1
  o_ol_cnt _ := 5
  ol_i_id _ _ := 1
  tmp_float _ _ := 10
  timestamp := 0

def sampleFloats : Floats where
  amount ol_quantity i_price _ _ _ := ol_quantity * i_price
  sub := (· - ·)
  add := (· + ·)

/-- Five lines of different items, two pieces each. -/
def sampleOrder : Txn := .neword ⟨1, 1, 1, 1, ⟨5, fun k => 5 - k, fun _ => 1, fun _ => 2⟩⟩

def samplePayment : Txn := .payment ⟨1, 1, false, 1, 1, 1, 500⟩

def sampleDelivery : Txn := .delivery ⟨1, 3, 7⟩ 0

theorem run_reach (srv : Server) {t : Txn} (ht : t.Drawn)
    (h : (lts fl dr min_ware max_ware).Reach db) :
    (lts fl dr min_ware max_ware).Reach (t.run fl srv db).2 :=
  h.step (a := (srv, t)) ⟨ht, rfl⟩

theorem sampleDraws_inRange : sampleDraws.InRange := by
  intro key
  show (10 : Int) ≤ 50 ∧ (50 : Int) ≤ 100
  decide

def sampleServer : Server := ⟨fun _ _ => true, fun _ => true, []⟩

/-- A new order, a payment and a delivery, one after the other. -/
def sampleRound (db : DB) : DB :=
  let db₁ := (sampleOrder.run sampleFloats sampleServer db).2
  let db₂ := (samplePayment.run sampleFloats sampleServer db₁).2
  (sampleDelivery.run sampleFloats sampleServer db₂).2

theorem sampleOrder_drawn : sampleOrder.Drawn := by
  intro k _
  show (1 : Int) ≤ 2 ∧ (2 : Int) ≤ 10
  decide

theorem sampleRound_reach (h : (lts sampleFloats dr min_ware max_ware).Reach db) :
    (lts sampleFloats dr min_ware max_ware).Reach (sampleRound db) := by
  have horder := run_reach sampleServer sampleOrder_drawn h
  have hpayment := run_reach (t := samplePayment) sampleServer trivial horder
  exact run_reach (t := sampleDelivery) sampleServer trivial hpayment

def sampleRun : DB := sampleRound (load sampleDraws 1 1)

theorem sampleRun_reach : (lts sampleFloats sampleDraws 1 1).Reach sampleRun :=
  sampleRound_reach (.init rfl)

theorem consistent_reach_sample : Consistent sampleRun :=
  consistent_reach sampleDraws_inRange sampleRun_reach

/-! ## The customers' data -/

theorem c_data_neword {t : NewOrder} (ht : t.Drawn) (hdb : Consistent db)
    (key : Int × Int × Int) : (neword fl srv t db).2.c_data key = db.c_data key := by
  rcases transaction_cases (newordBody fl srv t) with heq | hok
  · exact congrArg (fun db : DB => db.c_data key) heq
  · obtain ⟨row, -, -, hput⟩ := newordBody_ok hdb ht hok
    unfold neword
    rw [← hput.same]
    rfl

theorem c_data_update {customer : Int × Int × Int → Option Customer} {row : Option Customer}
    {c_key : Int × Int × Int}
    (hrow : row.map Customer.c_data = (customer c_key).map Customer.c_data)
    (key : Int × Int × Int) : (Function.update customer c_key row key).map Customer.c_data =
      (customer key).map Customer.c_data := by
  by_cases hkey : key = c_key
  · rw [hkey, Function.update_self, hrow]
  · rw [Function.update_of_ne hkey]

theorem c_data_payment (t : Payment) (key : Int × Int × Int) :
    (payment fl srv t db).2.c_data key = db.c_data key := by
  rcases transaction_cases (paymentBody fl srv t) with heq | hok
  · exact congrArg (fun db : DB => db.c_data key) heq
  · obtain ⟨_, _, c_id, row, -, -, hrow, heq⟩ := paymentBody_ok hok
    unfold payment
    rw [heq]
    refine c_data_update ?_ key
    rw [hrow]
    rfl

theorem c_data_deliveryLoop (t : Delivery) (ds : List Nat) (ol_total : Int)
    (key : Int × Int × Int) :
    (deliveryLoop fl srv t ds ol_total db).2.c_data key = db.c_data key := by
  induction ds generalizing ol_total db with
  | nil => rfl
  | cons d_id ds ih =>
    unfold deliveryLoop
    split
    · rfl
    · split
      · exact ih ol_total
      · split
        · rename_i db' ol_total' hok
          split
          · rw [ih ol_total']
            obtain ⟨order, -, rfl⟩ := deliverBody_ok hok
            refine c_data_update ?_ key
            rw [Option.map_map]
            rfl
          · rfl
        · rfl

theorem Txn.c_data_run (t : Txn) (ht : t.Drawn) (hdb : Consistent db) (key : Int × Int × Int) :
    (t.run fl srv db).2.c_data key = db.c_data key := by
  cases t with
  | neword t => exact c_data_neword ht hdb key
  | payment t => exact c_data_payment t key
  | delivery t ol_total => exact c_data_deliveryLoop t _ ol_total key

/-- **`c_data` is never changed.** -/
theorem c_data_kept (hdr : dr.InRange) (h : (lts fl dr min_ware max_ware).Reach db) :
    ∀ key, db.c_data key = (load dr min_ware max_ware).c_data key := by
  have hall : Consistent db ∧ ∀ key, db.c_data key = (load dr min_ware max_ware).c_data key := by
    refine LTS.Reach.invariant (T := lts fl dr min_ware max_ware) (I := fun db =>
      Consistent db ∧ ∀ key, db.c_data key = (load dr min_ware max_ware).c_data key) ?_ ?_ h
    · rintro db rfl
      exact ⟨consistent_load hdr min_ware max_ware, fun key => rfl⟩
    · rintro db a db' ⟨hdb, hdata⟩ ⟨ht, rfl⟩
      refine ⟨a.2.consistent_run ht hdb, fun key => ?_⟩
      rw [a.2.c_data_run ht hdb, hdata]
  exact hall.2

theorem c_data_kept_sample :
    sampleRun.c_data (1, 1, 1) = (load sampleDraws 1 1).c_data (1, 1, 1) :=
  c_data_kept sampleDraws_inRange sampleRun_reach (1, 1, 1)

end DevTools.Tpcc
