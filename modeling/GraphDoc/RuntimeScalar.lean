import GraphDoc.Framework
import GraphDoc.Store.Basic

/-!
# Runtime scalars

A runtime scalar is a variable type that the client fills in itself. The server knows only the
scalar that it is sent as, so the variable takes that type and a marker keeps the type it was
declared with.
-/

set_option autoImplicit false

namespace GraphDoc.Store

def retype (runtime sentAs : String) (s : Store) (entry : Int × VariableRow) : Store :=
  let (id, row) := entry
  let s := { s with declarations := s.declarations.modify id fun v =>
    { v with type := ⟨sentAs, v.type.modifiers⟩ } }
  let (s, use) := s.addDirective .declaration ⟨id, Framework.runtimeScalarTag, row.position⟩
  let (s, value) := s.addValueRow
    ⟨.string, runtime, some ⟨"String", "!"⟩, some row.document, row.position⟩
  (s.addDirectiveArgument .declaration ⟨use, Framework.typeArgument, value, row.position⟩).1

def retypeScalar (outcome : Store × Nat) (scalar : String × String) : Store × Nat :=
  let (s, count) := outcome
  let found := s.declarations.entries.filter (·.2.type.name == scalar.1)
  (found.foldl (retype scalar.1 scalar.2) s, count + found.length)

/-- Takes the configured scalars one after the other, in order of their names. -/
def retypeScalars (scalars : NameMap String) (s : Store) : Store × Nat :=
  scalars.foldl retypeScalar (s, 0)

end GraphDoc.Store
