import TreeQuery.Tree.Basic
import TreeQuery.Json.Read

/-!
# Loading a tree from a JSON description

Nodes are numbered by a stack of pending entries, so the deeper nodes of later siblings are
numbered first.
-/

namespace TreeQuery

/-- A node as a description gives it. -/
structure Description where
  typeName : String
  id : String := ""
  aliases : List String := []
  properties : List (String × Json.Value) := []
  children : List Description := []

/-- Why a tree description could not be loaded. -/
inductive LoadError where
  | json
  | invalidProperty (node : String) (name : String)
deriving DecidableEq, Repr

def LoadError.message : LoadError → String
  | .json => "invalid tree description"
  | .invalidProperty node name =>
    "property '" ++ name ++ "' of node '" ++ node ++ "' must be a string, number or boolean"

def insertByName {α : Type} (name : String) (value : α) : List (String × α) → List (String × α)
  | [] => [(name, value)]
  | (k, v) :: rest =>
    if name < k then (name, value) :: (k, v) :: rest
    else if name = k then (name, value) :: rest
    else (k, v) :: insertByName name value rest

def byName {α : Type} (members : List (String × α)) : List (String × α) :=
  members.foldl (fun acc (k, v) => insertByName k v acc) []

def descriptionFields : List String := ["type", "id", "aliases", "properties", "children"]

def stringsOf (items : List Json.Value) : Option (List String) :=
  items.mapM fun
    | .string s => some s
    | _ => none

def textOf : Json.Value → Option String
  | .string s => some s
  | _ => none

def aliasesOf : Json.Value → Option (List String)
  | .array items => stringsOf items
  | _ => none

def propertiesOf : Json.Value → Option (List (String × Json.Value))
  | .object members => some (byName members)
  | _ => none

/-- Read a description from a JSON value. The fuel bounds the nesting of children; a value
read from JSON text nests at most 127 deep, so 128 always suffices. -/
def Description.ofValue : Nat → Json.Value → Option Description
  | 0, _ => none
  | fuel + 1, .object members =>
    let names := members.map Prod.fst
    if !names.all (descriptionFields.contains ·) || names.eraseDups.length != names.length then none
    else
      let get (k : String) := (members.find? fun p => p.1 == k).map Prod.snd
      let orDefault {β : Type} (k : String) (default : β) (read : Json.Value → Option β) : Option β :=
        match get k with
        | none => some default
        | some v => read v
      do
        let typeName ← (get "type").bind textOf
        let id ← orDefault "id" "" textOf
        let aliases ← orDefault "aliases" [] aliasesOf
        let properties ← orDefault "properties" [] propertiesOf
        let children ← orDefault "children" [] fun
          | .array items => items.mapM (Description.ofValue fuel)
          | _ => none
        pure ⟨typeName, id, aliases, properties, children⟩
  | fuel + 1, .array items =>
    let orDefault {β : Type} (i : Nat) (default : β) (read : Json.Value → Option β) : Option β :=
      match items[i]? with
      | none => some default
      | some v => read v
    if items.length = 0 ∨ 5 < items.length then none
    else do
      let typeName ← items[0]?.bind textOf
      let id ← orDefault 1 "" textOf
      let aliases ← orDefault 2 [] aliasesOf
      let properties ← orDefault 3 [] propertiesOf
      let children ← orDefault 4 [] fun
        | .array items => items.mapM (Description.ofValue fuel)
        | _ => none
      pure ⟨typeName, id, aliases, properties, children⟩
  | _ + 1, _ => none

mutual

def Description.count : Description → Nat
  | ⟨_, _, _, _, children⟩ => 1 + Description.countAll children

def Description.countAll : List Description → Nat
  | [] => 0
  | d :: ds => d.count + Description.countAll ds

end

def propertyText : Json.Value → Option String
  | .string s => some s
  | .bool b => some (if b then "true" else "false")
  | .number n => some n.text
  | _ => none

def Description.toData (d : Description) : Except LoadError NodeData :=
  d.properties.foldlM convert { id := d.id, types := d.typeName :: d.aliases }
where
  convert (data : NodeData) : String × Json.Value → Except LoadError NodeData
    | (k, v) =>
      match propertyText v with
      | some s => .ok { data with properties := data.properties.insert k s }
      | none => .error (.invalidProperty data.label k)

/-- Number the pending children: take the top entry, append its children in order, and push
each child that has children of its own. -/
def Tree.grow : Nat → Tree → List (Nat × List Description) → Except LoadError Tree
  | 0, t, _ => .ok t
  | _ + 1, t, [] => .ok t
  | fuel + 1, t, (parent, kids) :: stack => do
    let (t, pushed) ← kids.foldlM (place parent) (t, [])
    Tree.grow fuel t (pushed ++ stack)
where
  place (parent : Nat) : Tree × List (Nat × List Description) → Description →
      Except LoadError (Tree × List (Nat × List Description))
    | (t, pushed), kid => do
      let data ← kid.toData
      let (t, id) := t.append parent data
      pure (t, if kid.children.isEmpty then pushed else (id, kid.children) :: pushed)

def Tree.ofDescription (d : Description) : Except LoadError Tree := do
  let root ← d.toData
  Tree.grow d.count (Tree.new root) [(0, d.children)]

def Tree.ofValue (v : Json.Value) : Except LoadError Tree :=
  match Description.ofValue 128 v with
  | some d => Tree.ofDescription d
  | none => .error .json

/-- The tree a JSON text describes. -/
def Tree.load (text : String) : Except LoadError Tree :=
  match Json.Value.read? text with
  | some v => Tree.ofValue v
  | none => .error .json

mutual

/-- A value as it reads after being written out and read back: of members of one name only
the last is kept, and a float is read back from its shortest text. -/
def Json.Value.reread : Json.Value → Json.Value
  | .number (.float negative x) =>
    match Json.readNumber (Json.numberFormat.render negative x).toList with
    | some (n, []) => .number n
    | _ => .number (.float negative x)
  | .array items => .array (Json.Value.rereadAll items)
  | .object members => .object (byName (Json.Value.rereadMembers members))
  | v => v

def Json.Value.rereadAll : List Json.Value → List Json.Value
  | [] => []
  | v :: vs => v.reread :: Json.Value.rereadAll vs

def Json.Value.rereadMembers : List (String × Json.Value) → List (String × Json.Value)
  | [] => []
  | (k, v) :: ms => (k, v.reread) :: Json.Value.rereadMembers ms

end

def Tree.ofDocument (v : Json.Value) : Except LoadError Tree := Tree.ofValue v.reread

end TreeQuery
