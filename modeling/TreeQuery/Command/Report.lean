import TreeQuery.Command.Options
import TreeQuery.Query
import TreeQuery.Tree.Load
import TreeQuery.Json.Write

/-!
# What a command-line run prints

A run's output is a list of pieces for standard output or standard error, in the order they
are printed, with the exit status at the end.
-/

namespace TreeQuery.Command

open Selector

inductive Channel where
  | out
  | err
deriving DecidableEq, Repr

/-- What a run prints, in order, and how it exits. -/
structure Output where
  pieces : List (Channel × String) := []
  code : UInt32 := 0

def Output.append (o : Output) (more : Output) : Output :=
  ⟨o.pieces ++ more.pieces, more.code⟩

def paint (on off : Nat) (s : String) : String :=
  "\x1b[" ++ toString on ++ "m" ++ s ++ "\x1b[" ++ toString off ++ "m"

def green (s : String) : String := paint 32 39 s
def red (s : String) : String := paint 31 39 s
def yellow (s : String) : String := paint 33 39 s
def cyan (s : String) : String := paint 36 39 s
def bold (s : String) : String := paint 1 22 s
def dimmed (s : String) : String := paint 2 22 s

def padRight (width : Nat) (s : String) : String :=
  s ++ String.ofList (List.replicate (width - s.length) ' ')

/-- A failure: what was being done, then its causes, one per line, numbered when there are
several. -/
def failure (context : String) (causes : List String) : Output :=
  let body := match causes with
    | [] => ""
    | [c] => "\n\nCaused by:\n    " ++ c
    | cs => "\n\nCaused by:" ++
      String.join ((List.range cs.length).zip cs |>.map fun (i, c) =>
        "\n    " ++ toString i ++ ": " ++ c)
  ⟨[(.err, "Error: " ++ context ++ body ++ "\n")], 1⟩

def pseudoListing : String :=
  String.join (Tree.pseudoCatalog.map fun (ident, blurb) => cyan (padRight 12 ident) ++ " " ++ blurb ++ "\n")

def chainReport (m : Matcher) : String :=
  bold "selector:" ++ " " ++ m.chain.render ++ "\n" ++
    bold "chain:" ++ " subject at node " ++ toString m.subject ++ ", " ++ toString m.chain.length ++
    " nodes\n"

def firstOccurrences (seen : List String) : List String → List String
  | [] => []
  | n :: ns => if seen.contains n then firstOccurrences seen ns else n :: firstOccurrences (n :: seen) ns

def warningLines (notes : List String) : Output :=
  ⟨(firstOccurrences [] notes).map fun n => (.err, yellow ("[Thicket Selector] ⚠ " ++ n) ++ "\n"), 0⟩

def matchValue (t : Tree) (id : Nat) : Json.Value :=
  let d := t.data id
  .object [("path", .string (t.path id)), ("id", .string d.id),
    ("types", .array (d.types.map .string)),
    ("properties", .object (d.properties.entries.map fun (k, v) => (k, .string v)))]

/-- The answer of a search from the root of a loaded tree. -/
def searchReport (o : Options) (m : Matcher) (t : Tree) : Output :=
  match o.mode with
  | .bool =>
    let hit := m.test t .tree 0
    let text := if o.json then Json.Value.compact (.bool hit.value)
      else if hit.value then green "true" else red "false"
    (warningLines hit.notes).append ⟨[(.out, text ++ "\n")], if hit.value then 0 else 1⟩
  | mode =>
    let found : Logged (List Nat) := match mode with
      | .first => Option.toList <$> m.first t .tree 0
      | .unique => Option.toList <$> m.unique t .tree 0
      | _ => m.all t .tree 0
    let code : UInt32 := if found.value.isEmpty then 1 else 0
    let shown : Output :=
      if o.json then
        ⟨[(.out, (Json.Value.array (found.value.map (matchValue t))).pretty ++ "\n")], code⟩
      else
        ⟨found.value.map (fun id => (.out, t.path id ++ "\n")) ++
          [(.err, dimmed (toString found.value.length ++ " match(es)") ++ "\n")], code⟩
    (warningLines found.notes).append shown

inductive Start where
  | finished (output : Output)
  | search (output : Output) (path : String) (m : Matcher)

/-- Everything a run does before the tree is read: the listing, the selector and its chain. -/
def Options.start (o : Options) : Start :=
  let listing : Output := if o.pseudos then ⟨[(.out, pseudoListing)], 0⟩ else {}
  if o.pseudos && o.tree.isNone then .finished listing
  else
    match o.tree, o.selector with
    | some path, some selector =>
      match Matcher.parse selector with
      | .error e =>
        .finished (listing.append (failure ("invalid selector `" ++ selector ++ "`") [e.message]))
      | .ok m =>
        let chain : Output := if o.chain then ⟨[(.out, chainReport m)], 0⟩ else {}
        .search (listing.append chain) path m
    | _, _ => .finished (listing.append (failure "a tree and a selector are required" []))

inductive Document where
  | text (s : String)
  | unopened (reason : String)
  | unreadable

def sourceName (path : String) : String := if path = "-" then "stdin" else path

/-- The rest of a run once the tree's text is read. -/
def finishRun (o : Options) (path : String) (m : Matcher) : Document → Output
  | .unopened reason => failure ("cannot open " ++ path) [reason]
  | .unreadable => failure ("failed to load tree from " ++ sourceName path) [LoadError.json.message]
  | .text s =>
    match Tree.load s with
    | .error e => failure ("failed to load tree from " ++ sourceName path) [e.message]
    | .ok t => searchReport o m t

end TreeQuery.Command
