import GraphDoc.Framework
import GraphDoc.Store.Tree

/-!
# Cloning fragments

A clone is a copy of a fragment under a new name. All values that the fragment owns are copied.
Selections with arguments or directives, and spreads, get rows of their own, because a clone changes
them; all other selections are shared and only placed again. The declaration of the arguments is
left out, so a clone declares none.
-/

set_option autoImplicit false

namespace GraphDoc

/-- Where rows went when they were copied. Rows that were not copied stand for themselves. -/
abbrev CopyMap := List (Int × Int)

def CopyMap.image (m : CopyMap) (id : Int) : Int := (m.lookup id).getD id

namespace Store

def copyValueRow (target : Int) (outcome : Store × CopyMap) (entry : Int × ValueRow) :
    Store × CopyMap :=
  let (s, m) := outcome
  let (s, copy) := s.addValueRow { entry.2 with document? := some target }
  (s, m ++ [(entry.1, copy)])

def copyLink (m : CopyMap) (s : Store) (link : ValueLink) : Store :=
  (s.addValueLink { link with parent := m.image link.parent, value := m.image link.value }).1

def copyValues (s : Store) (source target : Int) : Store × CopyMap :=
  let owned := s.values.entries.filter (·.2.document? = some source)
  let links := s.valueLinks.rows.filter fun link =>
    ((s.values.get? link.parent).bind (·.document?)) = some source
  let (s, m) := owned.foldl (copyValueRow target) (s, [])
  (links.foldl (copyLink m) s, m)

def copyDirectiveArgument (site : Site) (m : CopyMap) (use : Int) (s : Store)
    (a : Int × DirectiveArgument) : Store :=
  (s.addDirectiveArgument site { a.2 with owner := use, value := m.image a.2.value }).1

def copyDirective (site : Site) (m : CopyMap) (owner : Int) (s : Store)
    (use : Int × DirectiveUse) : Store :=
  let arguments := (s.directives site).argumentsOf use.1
  let (s, copy) := s.addDirective site { use.2 with owner := owner }
  arguments.foldl (copyDirectiveArgument site m copy) s

def copyFieldArgument (m : CopyMap) (selection : Int) (s : Store) (a : Int × FieldArgument) :
    Store :=
  (s.addFieldArgument { a.2 with selection := selection, value := m.image a.2.value }).1

def copySelection (values : CopyMap) (outcome : Store × CopyMap) (entry : Int × SelectionRow) :
    Store × CopyMap :=
  let (s, m) := outcome
  let arguments := s.argumentRows entry.1
  let directives := (s.directives .selection).usesOf entry.1
  let (s, copy) := s.addSelection entry.2
  let s := arguments.foldl (copyFieldArgument values copy) s
  let s := directives.foldl (copyDirective .selection values copy) s
  (s, m ++ [(entry.1, copy)])

def isOwned (s : Store) (id : Int) (row : SelectionRow) : Bool :=
  row.kind = .fragment || s.fieldArguments.rows.any (·.selection = id) ||
    (s.directives .selection).uses.rows.any (·.owner = id)

def selectionsIn (s : Store) (document : Int) : List (Int × SelectionRow) :=
  let here := s.placements.rows.filter (·.document = document)
  s.selections.entries.filter fun (id, _) => here.any (·.child = id)

def copyPlacement (m : CopyMap) (target : Int) (s : Store) (p : Placement) : Store :=
  (s.addPlacement
    { p with parent? := p.parent?.map m.image, child := m.image p.child, document := target }).1

def cloneFragment (s : Store) (source : Int) (row : DocumentRow) (name : String) : Store × Int :=
  let owned := (s.selectionsIn source).filter fun (id, row) => s.isOwned id row
  let placements := s.placements.rows.filter (·.document = source)
  let directives := ((s.directives .document).usesOf source).filter
    (·.2.name ≠ Framework.argumentsTag)
  let (s, clone) := s.addDocument { row with name := name, kind := .fragment }
  let (s, values) := s.copyValues source clone
  let s := directives.foldl (copyDirective .document values clone) s
  let (s, selections) := owned.foldl (copySelection values) (s, [])
  (placements.foldl (copyPlacement selections clone) s, clone)

end Store

end GraphDoc
