/-!
# Names and numbers of things

Entities are named by texts and typed by tags, both compared by code point. Transactions and change
sets are numbered.
-/

namespace EntityStore

/-- The name of an entity, unique in a store. Any text will do. -/
abbrev EntityId := String

abbrev TypeTag := String

/-- The form of an entity id in diagnostics. The id stands as it is. -/
def showEntityId (id : EntityId) : String := "EntityId(" ++ id ++ ")"

def showTypeAndId (tag : TypeTag) (id : EntityId) : String := tag ++ ":" ++ id

/-- The number of a transaction. A store counts them from one. -/
structure TransactionId where
  number : Nat
  deriving DecidableEq, Repr, Inhabited

namespace TransactionId

instance : ToString TransactionId := ⟨fun t => s!"txn:{t.number}"⟩

def describe (t : TransactionId) : String := s!"TransactionId({t.number})"

def compare (a b : TransactionId) : Ordering := Ord.compare a.number b.number

end TransactionId

/-- The place of a change set in the feed. The first is one; zero stands before all. -/
structure SequenceNumber where
  number : Nat
  deriving DecidableEq, Repr, Inhabited

namespace SequenceNumber

instance : ToString SequenceNumber := ⟨fun s => s!"seq:{s.number}"⟩

def next (s : SequenceNumber) : SequenceNumber := ⟨s.number + 1⟩

def compare (a b : SequenceNumber) : Ordering := Ord.compare a.number b.number

end SequenceNumber

end EntityStore
