import GraphDoc.Framework

/-!
# Built-in and framework definitions

The directives that every server understands and the definitions that the framework adds to every
schema.
-/

set_option autoImplicit false

namespace GraphDoc.Schema

def builtInDirectives : String := "
directive @skip(if: Boolean!) on FIELD | FRAGMENT_SPREAD | INLINE_FRAGMENT
directive @include(if: Boolean!) on FIELD | FRAGMENT_SPREAD | INLINE_FRAGMENT
directive @deprecated(reason: String) on FIELD_DEFINITION | ENUM_VALUE
"

def internalTypes : String := "
scalar ComponentFields

scalar Component

enum PaginateMode \x7b
    Infinite
    SinglePage
\x7d

enum DedupeMatchMode \x7b
    Variables
    Operation
    None
\x7d

enum CachePolicy \x7b
    CacheAndNetwork
    CacheOnly
    CacheOrNetwork
    NetworkOnly
    NoCache
\x7d

type __ArgumentSpecification \x7b
    type: String!
    default: ID
\x7d
"

def internalDirectives : String := "
\"\"\"
Mark a field as a list the runtime can insert into and remove from
\"\"\"
directive @list(name: String!, connection: Boolean) on FIELD_DEFINITION

\"\"\"
Mark a field as paginated
\"\"\"
directive @paginate(name: String!, mode: PaginateMode) on FIELD

directive @prepend on FRAGMENT_SPREAD

directive @append on FRAGMENT_SPREAD

directive @allLists on FRAGMENT_SPREAD

directive @mask_enable on FRAGMENT_SPREAD

directive @mask_disable on FRAGMENT_SPREAD

directive @parentID(value: ID!) on FRAGMENT_SPREAD

directive @when on FRAGMENT_SPREAD

directive @when_not on FRAGMENT_SPREAD

\"\"\"
Declare the arguments a fragment accepts
\"\"\"
directive @arguments on FRAGMENT_DEFINITION

\"\"\"
Pass arguments to a fragment
\"\"\"
directive @with on FRAGMENT_SPREAD

directive @dedupe(cancelFirst: Boolean, match: DedupeMatchMode) on QUERY | MUTATION

directive @optimisticKey on FIELD

directive @cache(policy: CachePolicy, partial: Boolean) on QUERY

directive @loading(count: Int, cascade: Boolean) on QUERY | FIELD | FRAGMENT_DEFINITION | FRAGMENT_SPREAD

directive @required on FIELD

\"\"\"
Declare a fragment as a field of its type condition
\"\"\"
directive @componentField(prop: String, field: String) on FRAGMENT_DEFINITION | INLINE_FRAGMENT | FIELD_DEFINITION
"

/-- The marker of replaced runtime scalars is declared under its one name. -/
def markerDirective : String :=
  "directive @" ++ Framework.runtimeScalarTag ++ "(type: String!) on QUERY\n"

def internalText : String := internalTypes ++ internalDirectives ++ "\n" ++ markerDirective

/-- Directives that tools do not show. -/
def hiddenDirectives : List String := [Framework.runtimeScalarTag]

end GraphDoc.Schema
