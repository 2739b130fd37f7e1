import EntityStore.Entity

/-!
# Scenarios

Small families of entities that refer to one another.
-/

namespace EntityStore.Scenario

def customer (id : EntityId) (name : String) : Entity := ⟨id, .customer name⟩

def order (id : EntityId) (customer : Option EntityId) : Entity := ⟨id, .order customer ""⟩

/-- The orders of one customer, each with one line. -/
def ordersOf (c orders : Nat) : List Entity :=
  (List.range orders).flatMap fun n =>
    [order s!"o{c}_{n}" (some s!"c{c}"), ⟨s!"l{c}_{n}", .orderLine (some s!"o{c}_{n}") "widget"⟩]

/-- Customers with the same number of orders each. -/
def orderBook (customers orders : Nat) : List Entity :=
  (List.range customers).flatMap fun c => customer s!"c{c}" s!"Customer {c}" :: ordersOf c orders

def chain (length : Nat) : List Entity :=
  (List.range length).map fun i => ⟨s!"n{i}", .node (if i = 0 then none else some s!"n{i - 1}")⟩

def rivals (a b : EntityId) : List Entity := [⟨a, .rival (some b) 0⟩, ⟨b, .rival (some a) 0⟩]

/-- Customers, and orders each of which has a customer of the given number or none. -/
def orderGraph (customers : Nat) (orders : List (Option Nat)) : List Entity :=
  (List.range customers).map (fun c => customer s!"c{c}" s!"Customer {c}") ++
    orders.mapIdx fun o c => order s!"o{o}" (c.map fun c => s!"c{c}")

end EntityStore.Scenario
