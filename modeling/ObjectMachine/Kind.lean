/-
# ObjectMachine.Kind -- what an object is

Every layout names the kind of the objects it describes. The kinds are numbered without
gaps, and `ofTag?` inverts the numbering.
-/

namespace ObjectMachine

/-- The kind of an object, as recorded in its layout. -/
inductive Kind where
  | layout
  | protocol
  | string
  | tuple
  | array
  | hashMap
  | forwarder
  | forwarderDescriptor
  | cell
  | inst
  | lambda
  | code
  | context
  | method
  | selector
  | signature
  | stack
  | task
  | singleton
  /-- Only the layout that small integers dispatch through has this kind. -/
  | smallInteger
  deriving DecidableEq, Inhabited

namespace Kind

/-- All kinds, each at the position of its number. -/
def all : List Kind :=
  [layout, protocol, string, tuple, array, hashMap, forwarder, forwarderDescriptor, cell, inst,
    lambda, code, context, method, selector, signature, stack, task, singleton, smallInteger]

/-- The number of a kind. -/
def tag : Kind → Nat
  | layout => 0
  | protocol => 1
  | string => 2
  | tuple => 3
  | array => 4
  | hashMap => 5
  | forwarder => 6
  | forwarderDescriptor => 7
  | cell => 8
  | inst => 9
  | lambda => 10
  | code => 11
  | context => 12
  | method => 13
  | selector => 14
  | signature => 15
  | stack => 16
  | task => 17
  | singleton => 18
  | smallInteger => 19

/-- How many kinds there are. -/
def count : Nat := 20

theorem tag_lt (k : Kind) : k.tag < count := by
  cases k <;> decide

/-- The kind with a given number. -/
def ofTag? (n : Nat) : Option Kind := all[n]?

theorem ofTag?_tag (k : Kind) : ofTag? k.tag = some k := by
  cases k <;> rfl

theorem mem_all (k : Kind) : k ∈ all := by
  cases k <;> decide

/-- The name of a kind in diagnostics. -/
def name : Kind → String
  | layout => "Layout"
  | protocol => "Protocol"
  | string => "String"
  | tuple => "Tuple"
  | array => "Array"
  | hashMap => "HashMap"
  | forwarder => "Forwarder"
  | forwarderDescriptor => "ForwarderDescriptor"
  | cell => "Cell"
  | inst => "Instance"
  | lambda => "Lambda"
  | code => "Code"
  | context => "Context"
  | method => "Method"
  | selector => "Selector"
  | signature => "Signature"
  | stack => "Stack"
  | task => "Task"
  | singleton => "Singleton"
  | smallInteger => "SmallInteger"

/-- The kind with a given name. -/
def ofName? (text : String) : Option Kind := all.find? (fun k => k.name == text)

/-- The name of the protocol that the built-in layout of a kind carries. -/
def protocolName : Kind → String
  | smallInteger => "Integer"
  | k => k.name

/-- The kinds of objects that are compared and hashed by their contents. -/
def isKey : Kind → Bool
  | string | tuple | selector | singleton => true
  | _ => false

end Kind

end ObjectMachine
