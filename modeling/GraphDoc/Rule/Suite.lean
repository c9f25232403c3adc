import GraphDoc.Rule.Directive
import GraphDoc.Rule.Field
import GraphDoc.Rule.Fragment
import GraphDoc.Rule.Lists

/-!
# The suite of rules

The sweeps come right after the discovery of lists, and the other rules build on what they record.
-/

set_option autoImplicit false

namespace GraphDoc.Rule

def sweeps : List Rule := [unknownDirectives, unknownFragments, paginateArguments]

def rules : List Rule :=
  [unknownFields, keyAliases, required, maskDirectives, directiveArguments, loading,
    optimisticKeyScalar, optimisticKeySelection, conflictingDirectives, singlePaginate,
    paginateTypeCondition, parentId, paginateWithList, missingWith, withValues, duplicateDocuments]

def find? (name : String) : Option Rule := (sweeps ++ rules).find? (·.name == name)

/-- A single worker gets the rules in their order. -/
def runAll (rs : List Rule) (config : Config) (s : Store) : Except Failure (Store × Diagnostics) :=
  rs.foldlM (fun (s, found) r => do
    let (s, more) ← r.run config s
    return (s, found ++ more)) (s, [])

end GraphDoc.Rule
