import Legible.Binding.Expressions

/-!
# Types and their members

What a type declaration declares and in which order its parts are visited. The members of a type
are declared before its body is visited, since they are visible throughout.
-/

namespace Legible

namespace Binder

/-! ## Type bodies -/

/-- The components of a record as fields, each with its accessor. -/
def componentMembers (c : BindingInput) (owner : String) (decl : Place) : List Member :=
  (decl.child? "parameters").toList.flatMap fun params =>
    params.namedChildren.filterMap fun param =>
      match param.declaredName?, c.unit.parameterType? param with
      | some nameNode, some type =>
        let name := c.unit.text nameNode
        some
          { space := .value, kind := .field, key := owner ++ "." ++ name, name
            declaredType := some type, type := fun b => b.staticType? c type
            arity := some ⟨0, false⟩, accessor := true }
      | _, _ => none

/-- The fields and methods that are declared at `p`. -/
def membersAt (c : BindingInput) (owner : String) (p : Place) : List Member :=
  match Construct.of p with
  | .field type =>
    p.declarators.map fun (d, nameNode) =>
      let name := c.unit.text nameNode
      let text := c.unit.typeText type ++ brackets (dimensionCount (d.child? "dimensions"))
      { space := .value, kind := .field, key := owner ++ "." ++ name, name
        declaredType := some text, type := fun b => b.staticType? c text
        arity := none, accessor := false }
  | .enumConstant nameNode _ =>
    let name := c.unit.text nameNode
    [{ space := .value, kind := .field, key := owner ++ "." ++ name, name
       declaredType := some owner, type := fun _ => some { base := .known owner }
       arity := none, accessor := false }]
  | .method nameNode params _ false =>
    [{ space := .method, kind := .method, key := c.unit.memberKey owner p
       name := c.unit.text nameNode
       declaredType := (p.child? "type").map c.unit.typeText, type := fun _ => none
       arity := some
        { count := (params.map c.unit.parameterTypes).getD [] |>.length
          varargs := params.any SourceUnit.hasSpread }
       accessor := false }]
  | .elementDecl nameNode =>
    [{ space := .method, kind := .method, key := c.unit.memberKey owner p
       name := c.unit.text nameNode, declaredType := none, type := fun _ => none
       arity := some ⟨0, false⟩, accessor := false }]
  | _ => []

/-- Declares a type at `p`, if there is one that the index knows. -/
def typeSteps (c : BindingInput) (p : Place) : List Step :=
  match Construct.of p, c.index.typeAt? c.number p with
  | .typeDecl _ name _, some key => [.declareType key (c.unit.text name)]
  | _, _ => []

/-- Declares the members of a type, which are visible throughout its body. -/
def memberSteps (c : BindingInput) (owner : String) (isRecord : Bool) (decl body : Place) :
    List Step :=
  (if isRecord then componentMembers c owner decl else []).map .declareMember
    ++ body.bodyMembers.flatMap fun p =>
      (membersAt c owner p).map .declareMember ++ typeSteps c p

/-- Visits a component of a record and links its name to the field. -/
def componentSteps (c : BindingInput) (owner : String) (param : Place) : List Step :=
  match param.declaredName? with
  | some name => exceptSteps param [name] ++ [.link name (owner ++ "." ++ c.unit.text name) .valid]
  | none => childSteps param

/-- Visits a part of a type declaration other than its name and body. -/
def headerSteps (c : BindingInput) (kind : TypeKind) (owner : String) (p : Place) : List Step :=
  if kind = .recordType && p.kind == "formal_parameters" then
    p.namedChildren.flatMap (componentSteps c owner)
  else [.visit p]

def typeVariableSteps (c : BindingInput) (p : Place) : List Step :=
  (c.unit.typeParameters p).map .bindTypeVariable

/-- What is done inside of a type declaration that the index knows. -/
def insideSteps (c : BindingInput) (p : Place) (kind : TypeKind) (name body : Place)
    (key : String) : List Step :=
  typeVariableSteps c p ++ memberSteps c key (kind = .recordType) p body
    ++ (p.namedChildren.filter (!·.isIn [name, body])).flatMap (headerSteps c kind key)
    ++ body.bodyMembers.map .visit

def declarationSteps (c : BindingInput) (p : Place) (kind : TypeKind) (name body : Place) :
    List Step :=
  match c.index.typeAt? c.number p with
  | none => childSteps p
  | some key =>
    [.declareType key (c.unit.text name),
      .name name name fun b => ((b.table.idOf? key).map .symbol, none),
      .inScope p .typeBody
        [.inFrame (fun b => ⟨key, b.table.idOf? key⟩) (insideSteps c p kind name body key)]]

/-- Visits the body of an anonymous type declared at `p`. -/
def anonymousSteps (c : BindingInput) (p body : Place) : List Step :=
  match c.index.typeAt? c.number p with
  | none => childSteps body
  | some key =>
    [.inScope p .typeBody [.inFrame (fun _ => ⟨key, none⟩)
      (memberSteps c key false p body ++ body.bodyMembers.map .visit)]]

/-! ## Members -/

/-- Visits a part of a field declaration: of a declarator the name is linked and the value
visited. -/
def fieldPartSteps (c : BindingInput) (owner : String) (p : Place) : List Step :=
  if p.kind == "variable_declarator" then
    (p.child? "name").toList.map
        (fun name => .link name (owner ++ "." ++ c.unit.text name) .valid)
      ++ (p.child? "value").toList.map .visit
  else [.visit p]

def fieldSteps (c : BindingInput) (owner : String) (p : Place) : List Step :=
  [.inMember (initializerKey owner (isStaticField p))
    (p.namedChildren.flatMap (fieldPartSteps c owner))]

/-- Visits an enum constant: its arguments belong to the static initializer of the enum. -/
def constantSteps (c : BindingInput) (owner : String) (p name : Place) (body : Option Place) :
    List Step :=
  [.link name (owner ++ "." ++ c.unit.text name) .valid,
    .inMember (initializerKey owner true) (exceptSteps p (name :: body.toList))]
    ++ body.toList.flatMap (anonymousSteps c p)

/-- Visits a parameter and declares it as the given kind of variable. -/
def parameterSteps (c : BindingInput) (kind : SymbolKind) (p : Place) : List Step :=
  (p.namedChildren.filter fun q =>
      !q.isIn p.declaredName?.toList && q.kind != "variable_declarator").map .visit
    ++ p.declaredName?.toList.map fun name =>
      .declareVariable name kind
        (fun b => (c.unit.parameterType? p, (c.unit.parameterType? p).bind (b.staticType? c))) []

def parametersSteps (c : BindingInput) (kind : SymbolKind) (params : Place) : List Step :=
  params.namedChildren.flatMap fun p =>
    if p.kind == "formal_parameter" || p.kind == "spread_parameter" then parameterSteps c kind p
    else [.visit p]

/-- Links the name of a method to its key; a constructor is named by its class. -/
def methodNameStep (name : Place) (key : String) (isConstructor : Bool) : Step :=
  if isConstructor then
    .name name name fun b => (some ((b.frames.head?.bind (·.symbol)).elim .keep .symbol), none)
  else .link name key .valid

def methodSteps (c : BindingInput) (owner : Option String) (p name : Place)
    (params : Option Place) (isConstructor : Bool) : List Step :=
  match owner with
  | none => childSteps p
  | some owner =>
    let key := c.unit.memberKey owner p
    [methodNameStep name key isConstructor,
      .inMember key [.inScope p .method (typeVariableSteps c p
        ++ (p.namedChildren.filter (!·.same name)).flatMap fun q =>
          if q.isIn params.toList then parametersSteps c .parameter q else [.visit q])]]

def initializerSteps (owner : String) (p block : Place) (isStatic : Bool) : List Step :=
  [.inMember (initializerKey owner isStatic) [.inScope block .method
    ((if p.same block then [] else exceptSteps p [block]) ++ childSteps block)]]

def elementSteps (c : BindingInput) (owner : Option String) (p name : Place) : List Step :=
  owner.toList.map (fun owner => .link name (c.unit.memberKey owner p) .valid)
    ++ exceptSteps p [name]

end Binder

end Legible
