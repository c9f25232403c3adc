/-!
# Names with a meaning

The directives that the framework understands, their arguments, and the names that are derived from
list names, type names and component fields.
-/

set_option autoImplicit false

namespace GraphDoc.Framework

/-! ## Directives -/

def listTag := "list"
def paginateTag := "paginate"
def prependTag := "prepend"
def appendTag := "append"
def dedupeTag := "dedupe"
def optimisticKeyTag := "optimisticKey"
def allListsTag := "allLists"
def parentIdTag := "parentID"
def whenTag := "when"
def whenNotTag := "when_not"
def argumentsTag := "arguments"
def withTag := "with"
def maskEnableTag := "mask_enable"
def maskDisableTag := "mask_disable"
def loadingTag := "loading"
def requiredTag := "required"
def componentFieldTag := "componentField"

def runtimeScalarTag := "__houdini__runtimeScalar"

def freeFormTags : List String := [withTag, whenTag, whenNotTag, argumentsTag]

/-! ## Arguments of directives -/

def nameArgument := "name"
def modeArgument := "mode"
def matchArgument := "match"
def propArgument := "prop"
def fieldArgument := "field"
def typeArgument := "type"

/-! ## Types and fields -/

/-- The type of the field that stands for a component field. -/
def componentType := "Component"

def typenameField := "__typename"

def builtInScalars : List String := ["Int", "Float", "String", "Boolean", "ID"]

/-! ## Derived names -/

def insertEnding := "_insert"
def toggleEnding := "_toggle"
def removeEnding := "_remove"
def deleteEnding := "_delete"

def operationEndings : List String := [insertEnding, toggleEnding, removeEnding]

def componentFragment (typeName field : String) : String :=
  "__componentField__" ++ typeName ++ "_" ++ field

def deleteDirective (typeName : String) : String := typeName ++ deleteEnding

end GraphDoc.Framework
