import Legible.Binding.Statements

/-!
# The traversal of a unit

One rule for each construct says which scopes it opens, what it declares, and in which order its
parts are visited. `Binder.visit` ties the rules together, down to a given number of levels, and a
tree is visited with as many levels as it has.
-/

namespace Legible

namespace Binder

/-! ## Expressions -/

/-- Visits an object creation; its class body comes last. -/
def creationSteps (c : BindingInput) (p type : Place) (body : Option Place) : List Step :=
  exceptSteps p body.toList
    ++ [.note p fun b => b.staticType? c (c.unit.typeText type)]
    ++ body.toList.flatMap (anonymousSteps c p)

/-- A binary expression and those that it nests to the left: itself first, then its left operand as
long as that is binary too. -/
def leftSpine : (levels : Nat) → Place → List Place
  | 0, p => [p]
  | levels + 1, p =>
    match p.child? "left" with
    | some left =>
      if left.kind == "binary_expression" then p :: leftSpine levels left else [p]
    | none => [p]

/-- Visits the right operand of a binary expression whose left one was visited. -/
def rightSteps (c : BindingInput) (p : Place) : List Step :=
  (p.child? "right").toList.map .visit ++ [.note p fun b => b.inferredType? c p]

/-- Visits a chain such as `a + b + c`, which nests to the left, operand by operand from the
innermost. -/
def binarySteps (c : BindingInput) (p : Place) : List Step :=
  ((leftSpine p.node.height p).getLast?.bind (·.child? "left")).toList.map .visit
    ++ (leftSpine p.node.height p).reverse.flatMap (rightSteps c)

/-- Visits the parts of a type parameter, whose own name stays as written. -/
def typeParameterSteps (p : Place) : List Step :=
  p.namedChildren.map fun q => if q.node.isName then .keep q else .visit q

/-! ## The traversal -/

def steps (c : BindingInput) (owner : Option String) (p : Place) : List Step :=
  match Construct.of p with
  | .package => []
  | .importName => importSteps c p
  | .typeDecl kind name body => declarationSteps c p kind name body
  | .field _ => fieldSteps c (owner.getD "") p
  | .enumConstant name body => constantSteps c (owner.getD "") p name body
  | .method name params _ isConstructor => methodSteps c owner p name params isConstructor
  | .elementDecl name => elementSteps c owner p name
  | .initializer block isStatic => initializerSteps (owner.getD "") p block isStatic
  | .block => [.inScope p .block (childSteps p)]
  | .forLoop => [.inScope p .block (childSteps p)]
  | .localVariables type => p.namedChildren.flatMap (variablePartSteps c type)
  | .enhancedFor type name value body => enhancedForSteps c p type name value body
  | .catchClause param body => catchSteps c p param body
  | .tryWithResources resources body => trySteps p resources body
  | .resource => resourceSteps c p
  | .lambda params body => lambdaSteps c p params body
  | .instanceOf left type name => .visit left :: typedSteps c type name
  | .typePattern type name => typedSteps c type name
  | .switch subject body => switchSteps p subject body
  | .methodCall object name arguments => callSteps c p object name arguments
  | .fieldAccess object field => accessSteps c p object field
  | .methodReference => referenceSteps c p
  | .objectCreation type body => creationSteps c p type body
  | .label => (p.namedChildren.filter (·.kind != "identifier")).map .visit
  | .annotationUse name =>
    typeNameSteps c (qualifierSteps c name.node.height) name ++ exceptSteps p [name]
  | .elementValuePair value => value.toList.map .visit
  | .typeParameter => typeParameterSteps p
  | .scopedType => typeNameSteps c (qualifierSteps c p.node.height) p
  | .typeIdentifier => typeNameSteps c (qualifierSteps c p.node.height) p
  | .identifier => [.name p p (nameMeaning c p)]
  | .other =>
    if p.kind == "binary_expression" then binarySteps c p
    else childSteps p ++ [.note p fun b => b.inferredType? c p]

/-- Visits a place and what is below it, for trees of at most `levels` levels. -/
def visit (c : BindingInput) : (levels : Nat) → Visit
  | 0, _, b => b
  | levels + 1, p, b => Step.runAll c (visit c levels) (steps c b.innermost? p) b

/-- The program of a whole unit: its types, which are visible throughout, are declared, then all of
it is visited. -/
def unitSteps (c : BindingInput) : List Step :=
  c.unit.top.namedChildren.flatMap (typeSteps c) ++ childSteps c.unit.top

/-- Where a traversal has come to when all of the unit is visited. -/
def walked (c : BindingInput) : Binder :=
  Step.runAll c (visit c c.unit.root.height) (unitSteps c) {}

def traverse (c : BindingInput) : Binder := (walked c).closeScope 0

end Binder

end Legible
