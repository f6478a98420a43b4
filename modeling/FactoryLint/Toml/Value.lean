namespace FactoryLint

namespace Toml

inductive TableForm
  /-- As a value in braces. Nothing is added to it. -/
  | braces
  | header
  /-- On the way to a table with a header. It may still get a header itself. -/
  | implied
  | dotted
  deriving DecidableEq, Repr

end Toml

inductive Toml
  | string (text : String)
  | integer (n : Int)
  | float (text : String)
  | boolean (b : Bool)
  | datetime (text : String)
  | array (items : List Toml)
  | table (form : Toml.TableForm) (entries : List (String × Toml))
  | tables (items : List (List (String × Toml)))

namespace Toml

abbrev Entries := List (String × Toml)

structure Key where
  path : List String
  name : String

def put (name : String) (value : Toml) : Entries → Entries
  | [] => [(name, value)]
  | (n, v) :: entries =>
    if n = name then (name, value) :: entries else (n, v) :: put name value entries

/-- Change the table at the end of a path, which is told what form it has. Tables on the way that
are not there yet are made in the form `form`. Of tables with a repeated header, the last one is
meant. A dotted key does not lead into a table with a header, and nothing leads into braces. -/
def change? (form : TableForm) (f : TableForm → Entries → Option Entries) :
    List String → TableForm → Entries → Option Entries
  | [], here, entries => f here entries
  | name :: path, _, entries =>
    match entries.lookup name with
    | none => do
      let inner ← change? form f path form []
      return put name (.table form inner) entries
    | some (.table own inner) => do
      if own == .braces || (form == .dotted && own == .header) then none
      let inner ← change? form f path own inner
      return put name (.table own inner) entries
    | some (.tables items) => do
      let last ← items.getLast?
      let inner ← change? form f path .header last
      return put name (.tables (items.dropLast ++ [inner])) entries
    | some _ => none

/-- Give a key its value in a table. It must not have one, and the tables that a dotted key names
have to be made by dotted keys. -/
def insert? (entries : Entries) (key : Key) (value : Toml) : Option Entries :=
  change? .dotted (fun form inner =>
    if (key.path.isEmpty || form == .dotted) && (inner.lookup key.name).isNone then
      some (inner ++ [(key.name, value)])
    else none) key.path .header entries

def insertAll? (entries : Entries) (pairs : List (Key × Toml)) : Option Entries :=
  pairs.foldlM (fun entries (key, value) => insert? entries key value) entries

def addTable? (entries : Entries) (key : Key) (pairs : List (Key × Toml)) : Option Entries :=
  change? .implied (fun _ outer => do
    let own ← match outer.lookup key.name with
      | none => some []
      | some (.table .implied own) => some own
      | some _ => none
    return put key.name (.table .header (← insertAll? own pairs)) outer) key.path .header entries

def addRepeated? (entries : Entries) (key : Key) (pairs : List (Key × Toml)) : Option Entries :=
  change? .implied (fun _ outer => do
    let items ← match outer.lookup key.name with
      | none => some []
      | some (.tables items) => some items
      | some _ => none
    let item ← insertAll? [] pairs
    return put key.name (.tables (items ++ [item])) outer) key.path .header entries

end Toml

end FactoryLint
