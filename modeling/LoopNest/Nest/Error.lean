import LoopNest.Loop

/-! What can be wrong with a nest, or with a question about one. -/
namespace LoopNest

/-- Why loops, links and computations do not make up a nest. -/
inductive Fault where
  | duplicateLoop (loop : String)
  | duplicateComputation (computation : String)
  | sharedOrder
  | brokenChain (computation loop : String)
  | noLoops (computation : String)
  | missingRoot (loop : String)
  | enclosedRoot (loop : String)
  | rootLevel (loop : String) (level : Nat)
  | reachedTwice (loop : String)
  | missingChild (child loop : String)
  | strayChild (child loop : String)
  | wrongLevel (child : String) (childLevel : Nat) (loop : String) (level : Nat)
  | unreached
  | unknownComputation (computation : String)
  | unlistedComputation (loop computation : String)
  | missingLoop (computation loop : String)
  | unplacedComputation (computation : String)
  | unrankedComputation (computation : String)
  | ranksNotPermutation
deriving DecidableEq

def ticked (name : String) : String := "`" ++ name ++ "`"

def Fault.message : Fault → String
  | duplicateLoop loop => "duplicate iterator " ++ ticked loop
  | duplicateComputation computation => "duplicate computation " ++ ticked computation
  | sharedOrder => "two computations share an absolute order"
  | brokenChain computation loop =>
    "iterators of " ++ ticked computation ++ " do not form a chain at " ++ ticked loop
  | noLoops computation => "computation " ++ ticked computation ++ " has no iterators"
  | missingRoot loop => "root " ++ ticked loop ++ " does not exist"
  | enclosedRoot loop => "root " ++ ticked loop ++ " has a parent"
  | rootLevel loop level => "root " ++ ticked loop ++ " is at level " ++ toString level
  | reachedTwice loop => "iterator " ++ ticked loop ++ " is reachable twice"
  | missingChild child loop =>
    "child " ++ ticked child ++ " of " ++ ticked loop ++ " does not exist"
  | strayChild child loop =>
    ticked child ++ " does not point back to parent " ++ ticked loop
  | wrongLevel child childLevel loop level =>
    ticked child ++ " is at level " ++ toString childLevel ++ " under " ++ ticked loop ++
      " at level " ++ toString level
  | unreached => "some iterators are not reachable from a root"
  | unknownComputation computation =>
    "unknown computation " ++ ticked computation ++ " is scheduled"
  | unlistedComputation loop computation =>
    ticked loop ++ " does not list computation " ++ ticked computation
  | missingLoop computation loop =>
    "computation " ++ ticked computation ++ " is under missing iterator " ++ ticked loop
  | unplacedComputation computation =>
    "computation " ++ ticked computation ++ " has no iterator"
  | unrankedComputation computation =>
    "computation " ++ ticked computation ++ " has no absolute order"
  | ranksNotPermutation => "absolute order is not a permutation of the computations"

inductive ReadFailure where
  | missing
  | notText
deriving DecidableEq

/-- Why a nest could not be made, or a question about one has no answer. -/
inductive Nest.Error where
  | unknownComputation (name : String)
  | unknownLoop (name : String)
  | unknownLoopId (id : LoopId)
  | levelTooDeep (computation : String) (level : Nat)
  | malformed (fault : Fault)
  | notJson
  | unreadable (cause : ReadFailure)
deriving DecidableEq

namespace Nest.Error

def message : Nest.Error → String
  | unknownComputation name => "computation " ++ ticked name ++ " not found"
  | unknownLoop name => "iterator " ++ name ++ " not found"
  | unknownLoopId id => "iterator " ++ id.text ++ " not found"
  | levelTooDeep computation level =>
    "computation " ++ ticked computation ++ " has no iterator at level " ++ toString level
  | malformed fault => "malformed program structure: " ++ fault.message
  | notJson => "invalid program structure json"
  | unreadable .missing => "I/O error: no such file"
  | unreadable .notText => "I/O error: the file is not UTF-8"

/-- Whether a name or level could not be resolved, as opposed to a faulty description. -/
def isUnresolved : Nest.Error → Bool
  | unknownComputation _ | unknownLoop _ | unknownLoopId _ | levelTooDeep _ _ => true
  | malformed _ | notJson | unreadable _ => false

end Nest.Error

end LoopNest
