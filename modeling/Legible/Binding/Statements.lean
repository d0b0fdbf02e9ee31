import Legible.Binding.Members

/-!
# Variables and the statements that declare them

Local variables are declared by declarators, loops, catch clauses, resources, patterns and lambda
parameters. Each is visible from its declaration to the end of the scope that is open there.
-/

namespace Legible

namespace Binder

/-- Whether the type of a variable is left to its value. -/
def isInferred (c : BindingInput) (type : Place) : Bool := c.unit.text type == "var"

def variableTypeSteps (c : BindingInput) (type : Place) : List Step :=
  if isInferred c type then [.keep type] else [.visit type]

/-- Visits what a resource has besides its type, name and value, then its type. -/
def resourceHeadSteps (c : BindingInput) (p name : Place) (type value : Option Place) :
    List Step :=
  exceptSteps p (name :: (value.toList ++ type.toList)) ++ type.toList.flatMap (variableTypeSteps c)

/-- Declares a variable whose type is that of its value. -/
def inferredStep (name : Place) (value : Option Place) : Step :=
  .declareVariable name .localVariable
    (fun b => ((value.bind b.typeOf?).map StaticType.describe, value.bind b.typeOf?)) []

/-- Declares a variable with the type that is written for it, if one is. -/
def writtenStep (c : BindingInput) (name : Place) (text : Option String) : Step :=
  .declareVariable name .localVariable (fun b => (text, text.bind (b.staticType? c))) []

/-- Declares the variable of a declarator and visits its value. A variable whose type is left to
the value is declared after the value is visited, any other before. -/
def declaratorSteps (c : BindingInput) (p name : Place) (type : Option Place) : List Step :=
  let value := p.child? "value"
  (if p.kind == "resource" then resourceHeadSteps c p name type value else [])
    ++ if type.any (isInferred c) then value.toList.map .visit ++ [inferredStep name value]
      else
        writtenStep c name (type.map fun t =>
            c.unit.typeText t ++ brackets (dimensionCount (p.child? "dimensions")))
          :: value.toList.map .visit

/-- Visits a part of a local variable declaration. -/
def variablePartSteps (c : BindingInput) (type p : Place) : List Step :=
  if p.same type then variableTypeSteps c type
  else
    match p.child? "name" with
    | some name =>
      if p.kind == "variable_declarator" then declaratorSteps c p name (some type) else [.visit p]
    | none => [.visit p]

def resourceSteps (c : BindingInput) (p : Place) : List Step :=
  match p.child? "name" with
  | some name => declaratorSteps c p name (p.child? "type")
  | none => childSteps p

/-- Visits a type and declares a variable of it. -/
def typedSteps (c : BindingInput) (type name : Place) : List Step :=
  [.visit type, writtenStep c name (some (c.unit.typeText type))]

/-- The types of a loop variable: it takes the element type of the value if its own is left out. -/
def loopTypes (c : BindingInput) (type value : Place) (b : Binder) :
    Option String × Option StaticType :=
  if isInferred c type then
    (((b.typeOf? value).bind (·.element?)).map StaticType.describe,
      (b.typeOf? value).bind (·.element?))
  else (some (c.unit.typeText type), b.staticType? c (c.unit.typeText type))

def enhancedForSteps (c : BindingInput) (p type name value body : Place) : List Step :=
  [.inScope p .block (.visit value :: variableTypeSteps c type
    ++ [.declareVariable name .localVariable (loopTypes c type value)
        ((p.namedChildren.filter (·.kind == "modifiers")).map .visit),
      .visit body])]

def catchSteps (c : BindingInput) (p param body : Place) : List Step :=
  [.inScope p .block (exceptSteps param param.declaredName?.toList
    ++ param.declaredName?.toList.map
      (fun name => writtenStep c name (param.declaredType?.map c.unit.typeText))
    ++ [.visit body])]

/-- Visits a try statement with resources, which are visible in its body. -/
def trySteps (p resources body : Place) : List Step :=
  .inScope p .block [.visit resources, .visit body] :: exceptSteps p [resources, body]

def switchSteps (p : Place) (subject : Option Place) (body : Place) : List Step :=
  subject.toList.map .visit
    ++ [.inSwitch (fun b => subject.bind b.typeOf?) [.inScope p .block (childSteps body)]]

def untypedStep (p : Place) : Step :=
  .declareVariable p .localVariable (fun _ => (none, none)) []

def lambdaParameterSteps (c : BindingInput) (params : Place) : List Step :=
  if params.kind == "identifier" then [untypedStep params]
  else if params.kind == "formal_parameters" then parametersSteps c .localVariable params
  else params.namedChildren.map fun p =>
    if p.kind == "identifier" then untypedStep p else .visit p

def lambdaSteps (c : BindingInput) (p params body : Place) : List Step :=
  [.inScope p .method (lambdaParameterSteps c params ++ [.visit body])]

end Binder

end Legible
