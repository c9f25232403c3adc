/-!
# Kinds of documents and selections
-/

set_option autoImplicit false

namespace GraphDoc

inductive DocumentKind where
  | query | mutation | subscription | fragment
deriving DecidableEq, Inhabited

namespace DocumentKind

def text : DocumentKind → String
  | query => "query"
  | mutation => "mutation"
  | subscription => "subscription"
  | fragment => "fragment"

def ofText? (s : String) : Option DocumentKind :=
  [query, mutation, subscription, fragment].find? (·.text == s)

def isOperation : DocumentKind → Bool
  | fragment => false
  | _ => true

end DocumentKind

inductive SelectionKind where
  | field | inlineFragment | fragment
deriving DecidableEq, Inhabited

namespace SelectionKind

def text : SelectionKind → String
  | field => "field"
  | inlineFragment => "inline_fragment"
  | fragment => "fragment"

def ofText? (s : String) : Option SelectionKind :=
  [field, inlineFragment, fragment].find? (·.text == s)

end SelectionKind

end GraphDoc
