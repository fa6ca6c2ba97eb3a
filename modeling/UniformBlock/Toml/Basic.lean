/-!
# TOML

A `Toml` is a value of a TOML text. Of numbers only their presence is kept, since
nothing in this library is configured by one; likewise for dates and times.

A text defines its tables piece by piece. `Node` is a table under construction;
it remembers how each table came about, because that decides who may still add
to it:

* a table on the way to the table of a header is `implicit`, and a header of its
  own may still follow;
* a table on the way to a dotted key is `dotted`, and only further dotted keys
  may add to it;
* a table with a header of its own is `explicit`, and no dotted key from outside
  reaches into it.

`extend` follows a path through such tables and creates the ones that are
missing; `openTable`, `openElement` and `assign` are the three statements of a
text in terms of it. Values, inline tables among them, are closed: no path leads
into them.
-/

namespace UniformBlock

inductive Toml where
  | boolean (value : Bool)
  | string (value : String)
  | number
  | moment
  | array (items : List Toml)
  | table (fields : List (String × Toml))

namespace Toml

/-- How a table came about. -/
inductive Origin where
  | implicit
  | dotted
  | explicit
deriving DecidableEq, Repr

/-- A part of a table under construction: a value, a table, or an array of tables
whose newest element stands first. -/
inductive Node where
  | value (v : Toml)
  | table (origin : Origin) (fields : List (String × Node))
  | tables (elements : List (List (String × Node)))

abbrev Fields := List (String × Node)

namespace Fields

def modify? (key : String) (change : Option Node → Option Node) : Fields → Option Fields
  | [] => (change none).map fun node => [(key, node)]
  | (k, node) :: fields =>
    if k = key then (change (some node)).map fun changed => (k, changed) :: fields
    else (modify? key change fields).map ((k, node) :: ·)

@[simp] theorem modify?_nil (key : String) (change : Option Node → Option Node) :
    modify? key change [] = (change none).map fun node => [(key, node)] := rfl

def originOf (dotted : Bool) : Origin := if dotted then .dotted else .implicit

/-- Follow a path of keys from a table of the given origin, and change the fields
of the table where it ends. Missing tables are created. The path may pass through
the newest element of an array of tables, and through an explicit table unless it
belongs to a dotted key. -/
def extend? (dotted : Bool) (change : Origin → Fields → Option Fields) :
    List String → Origin → Fields → Option Fields
  | [], origin, fields => change origin fields
  | key :: path, _, fields =>
    modify? key (fun found =>
      match found with
      | none =>
        (extend? dotted change path (originOf dotted) []).map (.table (originOf dotted))
      | some (.value _) => none
      | some (.table origin inner) =>
        if dotted && origin == .explicit then none
        else (extend? dotted change path origin inner).map (.table origin)
      | some (.tables []) => none
      | some (.tables (newest :: older)) =>
        (extend? dotted change path .explicit newest).map fun fields =>
          .tables (fields :: older)) fields

def add? (key : String) (node : Node) (fields : Fields) : Option Fields :=
  modify? key (fun found =>
    match found with
    | none => some node
    | some _ => none) fields

/-- The header of a table: its last key becomes an explicit table. A table that
was only passed through so far keeps its fields. -/
def openTable? (parents : List String) (key : String) (root : Fields) : Option Fields :=
  extend? false (fun _ fields =>
    modify? key (fun found =>
      match found with
      | none => some (.table .explicit [])
      | some (.table .implicit inner) => some (.table .explicit inner)
      | _ => none) fields) parents .explicit root

def openElement? (parents : List String) (key : String) (root : Fields) : Option Fields :=
  extend? false (fun _ fields =>
    modify? key (fun found =>
      match found with
      | none => some (.tables [[]])
      | some (.tables elements) => some (.tables ([] :: elements))
      | _ => none) fields) parents .explicit root

/-- A value for a key under the table of a header. A dotted key has to end in a
table that dotted keys made. -/
def assign? (header path : List String) (key : String) (v : Toml) (root : Fields) :
    Option Fields :=
  extend? false (fun origin fields =>
    extend? true (fun origin fields =>
      if (origin == .dotted) == path.isEmpty then none else add? key (.value v) fields)
      path origin fields) header .explicit root

end Fields

mutual

def Node.toToml : Node → Toml
  | .value v => v
  | .table _ fields => .table (fieldsToToml fields)
  | .tables elements => .array (elementsToToml elements).reverse

def fieldsToToml : List (String × Node) → List (String × Toml)
  | [] => []
  | (key, node) :: fields => (key, node.toToml) :: fieldsToToml fields

def elementsToToml : List (List (String × Node)) → List Toml
  | [] => []
  | fields :: elements => .table (fieldsToToml fields) :: elementsToToml elements

end

def ofFields (fields : Fields) : Toml := .table (fieldsToToml fields)

end Toml

end UniformBlock
