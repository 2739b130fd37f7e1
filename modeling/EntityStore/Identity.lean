import EntityStore.Error
import EntityStore.Text.Split

/-!
# Identities

An identity may wait for its id until somebody asks for it, and then keeps it. Ids that nobody chose
come from a supply, which never hands out one twice; the supply also tells the time.
-/

namespace EntityStore

/-- Where new ids and the time come from. -/
structure Supply where
  issued : Nat
  clock : Nat
  deriving DecidableEq

namespace Supply

def new : Supply := ⟨0, 0⟩

def padHex (width n : Nat) : String :=
  let digits := Nat.toDigits 16 n
  String.ofList (List.replicate (width - digits.length) '0' ++ digits)

/-- The id with a serial number, in the form of a random UUID. -/
def serialId (n : Nat) : EntityId := "00000000-0000-4000-8000-" ++ padHex 12 n

/-- An id that has not been handed out before. -/
def fresh (s : Supply) : EntityId × Supply :=
  (serialId s.issued, { s with issued := s.issued + 1 })

/-- The present time. Time has passed when it is asked for again. -/
def now (s : Supply) : Nat × Supply := (s.clock, { s with clock := s.clock + 1 })

def isHexDigit (c : Char) : Bool := c.isDigit || ('a' ≤ c && c ≤ 'f')

/-- Whether a text has the form of a random UUID in lower case, as ids from a supply have. -/
def hasGeneratedForm (id : EntityId) : Bool :=
  let groups := Text.splitAll '-' id.toList
  groups.map List.length == [8, 4, 4, 4, 12] && groups.all (·.all isHexDigit) &&
    match groups with
    | [_, _, version, variant, _] =>
      version.head? == some '4' && variant.head?.any ['8', '9', 'a', 'b'].contains
    | _ => false

end Supply

/-- An id that may still be open, and the time of the last change if anybody has asked for it. -/
structure Identity where
  chosen : Option EntityId
  modifiedAt : Option Nat
  deriving DecidableEq

namespace Identity

def new : Identity := ⟨none, none⟩

def withId (id : EntityId) : Identity := ⟨some id, none⟩

def hasId (i : Identity) : Bool := i.chosen.isSome

/-- The id, which is settled by asking. -/
def id (i : Identity) (s : Supply) : EntityId × Identity × Supply :=
  match i.chosen with
  | some id => (id, i, s)
  | none =>
    let (id, s) := s.fresh
    (id, { i with chosen := some id }, s)

def setId (i : Identity) (id : EntityId) : Result Unit × Identity :=
  match i.chosen with
  | none => (.ok (), { i with chosen := some id })
  | some old => (.error (.illegalState s!"id already set: {old} (rejected {id})"), i)

/-- The identity and a copy. The id is settled first, so that both agree on it. -/
def copy (i : Identity) (s : Supply) : Identity × Identity × Supply :=
  let (_, i, s) := i.id s
  (i, i, s)

/-- The time of the last change, which is now if there was none. -/
def lastModified (i : Identity) (s : Supply) : Nat × Identity × Supply :=
  match i.modifiedAt with
  | some time => (time, i, s)
  | none =>
    let (time, s) := s.now
    (time, { i with modifiedAt := some time }, s)

def touch (i : Identity) (s : Supply) : Identity × Supply :=
  let (time, s) := s.now
  ({ i with modifiedAt := some time }, s)

end Identity

end EntityStore
