import OpenKeyV.Time
import Mathlib.Data.List.Basic

/-!
# Change records

The data types of `change.rs`: one record for each successful mutation, the
position from which a subscription starts, and the filter it applies.
-/

namespace OpenKeyV

structure ChangeCursor where
  text : String
  deriving DecidableEq, Repr

inductive ChangeOperation where
  | put
  | delete
  deriving DecidableEq, Repr

namespace ChangeOperation

def text : ChangeOperation → String
  | .put => "put"
  | .delete => "delete"

def parse (text : String) : Option ChangeOperation :=
  if text = "put" then some .put
  else if text = "delete" then some .delete
  else none

@[simp] theorem parse_text (operation : ChangeOperation) :
    parse operation.text = some operation := by
  cases operation <;> decide

end ChangeOperation

structure StoreChange where
  cursor : ChangeCursor
  revision : Nat
  collection : String
  key : String
  operation : ChangeOperation
  occurredAt : DateTime
  deriving DecidableEq, Repr

inductive ChangeStart where
  | beginning
  | after (cursor : ChangeCursor)
  | latest
  deriving DecidableEq, Repr

structure ChangeFilter where
  collections : List String
  operations : List ChangeOperation
  deriving DecidableEq, Repr

namespace ChangeFilter

/-- `ChangeFilter::default()`, which selects every change. -/
def default : ChangeFilter := ⟨[], []⟩

def selects (filter : ChangeFilter) (collection : String)
    (operation : ChangeOperation) : Bool :=
  (filter.collections.isEmpty || filter.collections.contains collection) &&
    (filter.operations.isEmpty || filter.operations.contains operation)

def accepts (filter : ChangeFilter) (change : StoreChange) : Bool :=
  filter.selects change.collection change.operation

end ChangeFilter

structure ChangeFeedRequest where
  start : ChangeStart
  filter : ChangeFilter
  deriving DecidableEq, Repr

end OpenKeyV
