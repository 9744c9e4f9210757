/-!
# Data blocks

A data block declares constructors: it has a name, and each constructor has a name and names
for its fields.  The names of fields are not looked at again.
-/

namespace InteractionGraph

/-- The declaration of a constructor. -/
structure ConstructorDeclaration where
  name : String
  fields : List String
  deriving DecidableEq

/-- The declaration of the constructors of a type. -/
structure DataBlock where
  name : String
  constructors : List ConstructorDeclaration
  deriving DecidableEq

end InteractionGraph
