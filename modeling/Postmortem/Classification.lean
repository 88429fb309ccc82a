import Postmortem.TypeName

/-!
# What a container is, by its name

Hash containers come in two physical families, and hold either keys alone or keys with values.  Both
are told from the name of the type.

* `Family`, `Kind`, `Classification` — the answer.
* `bucketContainers`, `groupedContainers`, `bucketIterators`, `groupedIterators` — the names known.
* `classify` — from a type's name to its classification.  Template arguments play no part, and a
  name that is not known counts as one of the bucket family.
-/

namespace Postmortem

/-- How a container is laid out. -/
inductive Family where
  /-- Closed addressing: buckets, each the head of a chain of nodes. -/
  | bucket
  /-- Open addressing: groups of control words beside an array of elements. -/
  | grouped
  deriving Repr, DecidableEq

/-- What the elements of a container are. -/
inductive Kind where
  | set
  | map
  deriving Repr, DecidableEq

/-- What is known of a container from its name. -/
structure Classification where
  family : Family
  kind : Kind
  /-- The name under which it is shown. -/
  displayName : String
  deriving Repr, DecidableEq

/-! ## Known names -/

def bucketContainers : List String :=
  ["boost::unordered::unordered_map", "boost::unordered::unordered_multimap",
    "boost::unordered::unordered_set", "boost::unordered::unordered_multiset"]

def bucketIterators : List String :=
  ["boost::unordered::detail::iterator_detail::iterator",
    "boost::unordered::detail::iterator_detail::c_iterator"]

def groupedContainers : List String :=
  ["boost::unordered::unordered_flat_map", "boost::unordered::unordered_flat_set",
    "boost::unordered::unordered_node_map", "boost::unordered::unordered_node_set",
    "boost::unordered::concurrent_flat_map", "boost::unordered::concurrent_flat_set",
    "boost::unordered::concurrent_node_map", "boost::unordered::concurrent_node_set"]

def groupedIterators : List String :=
  ["boost::unordered::detail::foa::table_iterator"]

/-! ## Classification -/

def familyOf (base : String) : Family :=
  if (groupedContainers ++ groupedIterators).contains base then .grouped else .bucket

/-- The kind of a template: a map if its name ends so. -/
def kindOf (base : String) : Kind :=
  if TypeName.endsWith base "map" then .map else .set

/-- What a type's name says.  It is shown without the inner namespace. -/
def classify (name : String) : Classification :=
  let base := TypeName.base name
  { family := familyOf base
    kind := kindOf base
    displayName := TypeName.replaceAll base "boost::unordered::" "boost::" }

end Postmortem
