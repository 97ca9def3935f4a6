import LocaleAudit.Key.Path
import LocaleAudit.Key.Set

/-!
# LocaleAudit.Key.Diff

The difference between the keys that are expected and those that are there. A key that only one side
has is added or removed, unless the other side has a key above or below it: then the two sides
disagree about the shape at the upper of the two, and nothing is missing or superfluous.
-/

namespace LocaleAudit.Key

/-- A difference between the expected keys and those that are there. -/
inductive Change
  /-- The key is there, and it is not expected. -/
  | added (key : String)
  /-- The key is expected, and it is not there. -/
  | removed (key : String)
  /-- The key is a leaf on one side and a branch on the other. -/
  | changed (key : String)
deriving Repr, DecidableEq

/-- Some key of the set is below the given one. Such keys stand together, so that the first key from
there on tells. -/
def hasBelow (keys : KeySet) (key : String) : Bool :=
  let start := key ++ "."
  (keys.firstFrom? start).any fun k => start.toList.isPrefixOf k.toList

/-- Where a key that the other side does not have disagrees with it about the shape: at the
shortest key above it, or at the key itself if there are keys below it. -/
def conflict? (other : KeySet) (key : String) : Option String :=
  ((ancestors key.toList).map String.ofList).find? other.contains <|>
    if hasBelow other key then some key else none

/-- What is told of a key that only one side has, and the places of all conflicts that have been
told of: a conflict with the other side is told once, and a key without one as it is. -/
def tell (single : String → Change) (other told : KeySet) (key : String) :
    List Change × KeySet :=
  match conflict? other key with
  | some place =>
    if told.contains place then ([], told) else ([.changed place], told.insert place)
  | none => ([single key], told)

/-- The differences between two ascending lists of keys, which are walked through side by side. -/
def walk (expected actual told : KeySet) : List String → List String → List Change
  | e :: es, a :: as =>
    if e = a then walk expected actual told es as
    else if e < a then
      let now := tell .removed actual told e
      now.1 ++ walk expected actual now.2 es (a :: as)
    else
      let now := tell .added expected told a
      now.1 ++ walk expected actual now.2 (e :: es) as
  | e :: es, [] =>
    let now := tell .removed actual told e
    now.1 ++ walk expected actual now.2 es []
  | [], a :: as =>
    let now := tell .added expected told a
    now.1 ++ walk expected actual now.2 [] as
  | [], [] => []
termination_by es as => es.length + as.length

/-- The differences between two sets of keys in ascending order, each of them once. -/
def diff (expected actual : KeySet) : List Change :=
  walk expected actual .empty expected.toList actual.toList

end LocaleAudit.Key
