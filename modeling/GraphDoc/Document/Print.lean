import GraphDoc.Store.Tree

/-!
# Printing documents

A document is printed with two spaces of indentation for each level and without a final line end.
An alias that equals its field's name is left out.
-/

set_option autoImplicit false

namespace GraphDoc

def printArguments (arguments : List (String × Value)) : String :=
  if arguments.isEmpty then ""
  else "(" ++ Text.joinWith ", " (arguments.map fun a => a.1 ++ ": " ++ a.2.print) ++ ")"

def printDirectives (directives : List DirectiveNode) : String :=
  String.join (directives.map fun d => " @" ++ d.name ++ printArguments d.arguments)

namespace SelectionNode

def head (row : SelectionRow) (arguments : List (String × Value)) : String :=
  match row.kind with
  | .field =>
    let label := match row.label? with
      | some label => if label == row.name then "" else label ++ ": "
      | none => ""
    label ++ row.name ++ printArguments arguments
  | .fragment => "..." ++ row.name
  | .inlineFragment => "... on " ++ row.name

mutual

def print (indent : String) : SelectionNode → String
  | node _ row arguments directives children =>
    let line := indent ++ head row arguments ++ printDirectives directives
    match children with
    | [] => line ++ "\n"
    | _ => line ++ " \x7b\n" ++ printAll ("  " ++ indent) children ++ indent ++ "\x7d\n"

def printAll (indent : String) : List SelectionNode → String
  | [] => ""
  | n :: rest => n.print indent ++ printAll indent rest

end

end SelectionNode

namespace Store

def printVariable (s : Store) (v : VariableRow) : Except Failure String := do
  let declared := "$" ++ v.name ++ ": " ++ v.type.text
  match v.default? with
  | none => return declared
  | some id => return declared ++ " = " ++ (← s.value id).print

def printHead (s : Store) (id : Int) (row : DocumentRow) : Except Failure String := do
  match row.kind with
  | .fragment => return "fragment " ++ row.name ++ " on " ++ row.condition?.getD ""
  | kind =>
    let name := if row.name.isEmpty then "" else " " ++ row.name
    let declarations ← (s.variablesOf id).mapM fun v => s.printVariable v.2
    let declared :=
      if declarations.isEmpty then "" else "(" ++ Text.joinWith ", " declarations ++ ")"
    return kind.text ++ name ++ declared

def printDocument (s : Store) (id : Int) : Except Failure String := do
  match s.documents.get? id with
  | none => throw (.unknownDocument id)
  | some row =>
    let head ← s.printHead id row
    let directives ← s.directiveNodes .document id
    let tree ← s.selectionTree id
    return head ++ printDirectives directives ++ " \x7b\n" ++ SelectionNode.printAll "  " tree ++
      "\x7d"

def printAll (s : Store) : Except Failure String := do
  return Text.joinWith "\n\n" (← s.documents.entries.mapM fun d => s.printDocument d.1)

end Store

end GraphDoc
