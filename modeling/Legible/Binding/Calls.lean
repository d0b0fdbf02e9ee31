import Legible.Binding.TypeNames

/-!
# Calls

The method that a call means. A call without a receiver asks the scopes, then the types around,
then the static imports; one on a receiver asks the receiver's type; one on `super` the supertypes.
-/

namespace Legible

inductive CallTarget where
  /-- The method with the given key; the type of the call, if it is known. -/
  | found (key : String) (returns : Option StaticType)
  | missing (owner : String)
  | unknown

namespace Binder

def foundMethod (c : BindingInput) (owner : TypeInfo) (method : MethodInfo) : CallTarget :=
  .found method.key (c.index.returnType? owner method)

/-- The type of a call to the method with the given key, searched in the types around. -/
def returnTypeByKey? (c : BindingInput) (b : Binder) (key : String) : Option StaticType :=
  b.frames.findSome? fun frame =>
    (c.index.hierarchy frame.name).findSome? fun info =>
      (info.methods.find? (·.key == key)).bind (c.index.returnType? info)

/-- The methods in scope that take the number of arguments. -/
def methodsInScope (b : Binder) (method : String) (count : Nat) : List SymbolId :=
  (b.table.scopes.lookupAll b.scope .method method).filterMap fun (_, binding) =>
    match binding with
    | .symbol id =>
      match b.arities[id]? with
      | some arity => if arity.accepts count then some id else none
      | none => none
    | .typeVariable => none

/-- The target that the types around give: the first type that has such a method decides. -/
def targetInFrames? (c : BindingInput) (method : String) (args : List (Option StaticType)) :
    List TypeFrame → Option CallTarget
  | [] => none
  | frame :: rest =>
    match c.index.findMethod frame.name method args with
    | .found owner info => some (foundMethod c owner info)
    | .ambiguous _ => some .unknown
    | .absent => targetInFrames? c method args rest

def targetIn? (c : BindingInput) (method : String) (args : List (Option StaticType))
    (owners : List TypeRef) : Option CallTarget :=
  owners.findSome? fun owner =>
    owner.known?.bind fun name =>
      match c.index.findMethod name method args with
      | .found info m => some (foundMethod c info m)
      | _ => none

/-- The target of a call that neither the scopes nor the types around decide. -/
def importedTarget (c : BindingInput) (b : Binder) (method : String)
    (args : List (Option StaticType)) : CallTarget :=
  let owners := c.index.staticOwners c.number method
  match targetIn? c method args owners with
  | some target => target
  | none =>
    match owners with
    | [.external owner] => .missing owner
    | _ =>
      match b.innermost? with
      | some owner => .missing owner
      | none => .unknown

def unqualifiedTarget (c : BindingInput) (b : Binder) (method : String)
    (args : List (Option StaticType)) : CallTarget :=
  match b.methodsInScope method args.length with
  | [id] =>
    let key := b.keyOfSymbol id
    .found key (b.returnTypeByKey? c key)
  | _ =>
    match targetInFrames? c method args b.frames with
    | some target => target
    | none => b.importedTarget c method args

def supertypes (c : BindingInput) (b : Binder) : List TypeRef :=
  match b.innermost?.bind c.index.type? with
  | some info => info.supertypes
  | none => []

def superTarget (c : BindingInput) (b : Binder) (method : String)
    (args : List (Option StaticType)) : CallTarget :=
  match targetIn? c method args (b.supertypes c) with
  | some target => target
  | none =>
    match b.supertypes c with
    | first :: _ => .missing first.name
    | [] => .missing "Object"

def targetOn (c : BindingInput) (receiver : StaticType) (method : String)
    (args : List (Option StaticType)) : CallTarget :=
  match receiver.memberOwner? with
  | some (.known owner) =>
    match c.index.findMethod owner method args with
    | .found info m => foundMethod c info m
    | .absent => .missing owner
    | .ambiguous _ => .unknown
  | some (.external owner) => .missing owner
  | _ => .unknown

def callTarget (c : BindingInput) (b : Binder) (object : Option Place) (method : String)
    (args : List (Option StaticType)) : CallTarget :=
  match object with
  | none => b.unqualifiedTarget c method args
  | some object =>
    if object.kind == "super" then b.superTarget c method args
    else
      match b.typeOf? object with
      | some receiver => targetOn c receiver method args
      | none => .unknown

/-- What the name of a call is, once everything else has been visited. -/
def callMeaning (c : BindingInput) (object : Option Place) (name arguments : Place) (b : Binder) :
    Option Resolution × Option StaticType :=
  let args := arguments.namedChildren.map b.typeOf?
  let method := c.unit.text name
  match b.callTarget c object method args with
  | .found key returns => (some (b.target key .valid), returns)
  | .missing owner =>
    (some (b.target (methodKey owner method (List.replicate args.length "?")) .missing), none)
  | .unknown => (some .keep, none)

/-- Visits a call: everything but the name first, for the argument types. -/
def callSteps (c : BindingInput) (p : Place) (object : Option Place) (name arguments : Place) :
    List Step :=
  (p.namedChildren.filter (!·.same name)).map .visit
    ++ [.name name p (callMeaning c object name arguments)]

end Binder

end Legible
