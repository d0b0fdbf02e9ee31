import Legible.Tree.Place

/-!
# Constructs of Java

The parts of the language that matter for binding names, each with the places it is made of. A
node whose parts are not all there, and every node of another kind, is `other`: its children are
looked at one by one.
-/

namespace Legible

/-- What a type declaration declares. -/
inductive TypeKind where
  | classType
  | interfaceType
  | enumType
  | recordType
  | annotationType
deriving Repr, DecidableEq

/-- A construct with its parts. -/
inductive Construct where
  | package
  | importName
  | typeDecl (kind : TypeKind) (name body : Place)
  /-- A field of a class, or a constant of an interface. -/
  | field (type : Place)
  | enumConstant (name : Place) (body : Option Place)
  /-- A method, a constructor, or the compact constructor of a record. -/
  | method (name : Place) (params body : Option Place) (isConstructor : Bool)
  | elementDecl (name : Place)
  | initializer (block : Place) (isStatic : Bool)
  | block
  | localVariables (type : Place)
  | forLoop
  | enhancedFor (type name value body : Place)
  | catchClause (param body : Place)
  | tryWithResources (resources body : Place)
  | resource
  | lambda (params body : Place)
  | instanceOf (left type name : Place)
  | typePattern (type name : Place)
  | switch (subject : Option Place) (body : Place)
  | methodCall (object : Option Place) (name arguments : Place)
  | fieldAccess (object field : Place)
  | methodReference
  | objectCreation (type : Place) (body : Option Place)
  /-- A labeled statement, or a jump to a label. -/
  | label
  | annotationUse (name : Place)
  | elementValuePair (value : Option Place)
  | typeParameter
  | scopedType
  | identifier
  | typeIdentifier
  | other

namespace Construct

/-- A type declaration has a name and a body. -/
def typeDecl? (p : Place) (kind : TypeKind) : Option Construct := do
  some (.typeDecl kind (← p.child? "name") (← p.child? "body"))

/-- A method has a name; an interface method has no body. -/
def method? (p : Place) (isConstructor : Bool) : Option Construct := do
  some (.method (← p.child? "name") (p.child? "parameters") (p.child? "body") isConstructor)

/-- The pattern's type is its first part and the variable its last. -/
def typePattern? (p : Place) : Option Construct :=
  match p.namedChildren with
  | [] => none
  | [_] => none
  | type :: rest =>
    match rest.getLast? with
    | some name => if name.kind == "identifier" then some (.typePattern type name) else none
    | none => none

/-- A block directly in a type body is an instance initializer. -/
def ofBlock (p : Place) : Construct :=
  match p.parentKind? with
  | some "class_body" => .initializer p false
  | some "enum_body_declarations" => .initializer p false
  | _ => .block

/-- The construct at `p` if all its parts are there. -/
def of? (p : Place) : Option Construct := do
  match p.kind with
  | "package_declaration" => some .package
  | "import_declaration" => some .importName
  | "class_declaration" => typeDecl? p .classType
  | "interface_declaration" => typeDecl? p .interfaceType
  | "enum_declaration" => typeDecl? p .enumType
  | "record_declaration" => typeDecl? p .recordType
  | "annotation_type_declaration" => typeDecl? p .annotationType
  | "field_declaration" => some (.field (← p.child? "type"))
  | "constant_declaration" => some (.field (← p.child? "type"))
  | "enum_constant" => some (.enumConstant (← p.child? "name") (p.child? "body"))
  | "method_declaration" => method? p false
  | "constructor_declaration" => method? p true
  | "compact_constructor_declaration" => method? p true
  | "annotation_type_element_declaration" => some (.elementDecl (← p.child? "name"))
  | "static_initializer" => some (.initializer (← p.firstNamed? "block") true)
  | "block" => some (ofBlock p)
  | "constructor_body" => some .block
  | "local_variable_declaration" => some (.localVariables (← p.child? "type"))
  | "for_statement" => some .forLoop
  | "enhanced_for_statement" =>
    some (.enhancedFor (← p.child? "type") (← p.child? "name") (← p.child? "value")
      (← p.child? "body"))
  | "catch_clause" =>
    some (.catchClause (← p.firstNamed? "catch_formal_parameter") (← p.child? "body"))
  | "try_with_resources_statement" =>
    some (.tryWithResources (← p.child? "resources") (← p.child? "body"))
  | "resource" => some .resource
  | "lambda_expression" => some (.lambda (← p.child? "parameters") (← p.child? "body"))
  | "instanceof_expression" =>
    some (.instanceOf (← p.child? "left") (← p.child? "right") (← p.child? "name"))
  | "type_pattern" => typePattern? p
  | "switch_expression" => some (.switch (p.child? "condition") (← p.child? "body"))
  | "switch_statement" => some (.switch (p.child? "condition") (← p.child? "body"))
  | "method_invocation" =>
    some (.methodCall (p.child? "object") (← p.child? "name") (← p.child? "arguments"))
  | "field_access" => some (.fieldAccess (← p.child? "object") (← p.child? "field"))
  | "method_reference" => some .methodReference
  | "object_creation_expression" =>
    some (.objectCreation (← p.child? "type") (p.firstNamed? "class_body"))
  | "labeled_statement" => some .label
  | "break_statement" => some .label
  | "continue_statement" => some .label
  | "annotation" => some (.annotationUse (← p.child? "name"))
  | "marker_annotation" => some (.annotationUse (← p.child? "name"))
  | "element_value_pair" => some (.elementValuePair (p.child? "value"))
  | "type_parameter" => some .typeParameter
  | "scoped_type_identifier" => some .scopedType
  | "identifier" => some .identifier
  | "type_identifier" => some .typeIdentifier
  | _ => none

def of (p : Place) : Construct := (of? p).getD .other

end Construct

end Legible
