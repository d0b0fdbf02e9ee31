import Legible.Index.Build
import Std.Data.TreeMap.Lemmas

/-!
# Members of the types in the index

A type is entered with its header first, and its members are then added one by one. They leave the
header alone (`header_declaredType`), and all that is held of members comes from the components of
a record and from the places in the body (`TypeInfo.MembersFrom`).
-/

namespace Legible

/-! ## Headers -/

def TypeInfo.header (info : TypeInfo) : TypeInfo :=
  { info with fields := ∅, methods := [], memberTypes := ∅ }

theorem foldl_header {α : Type} {add : TypeInfo → α → TypeInfo}
    (h : ∀ info x, (add info x).header = info.header) (xs : List α) (info : TypeInfo) :
    (xs.foldl add info).header = info.header := by
  induction xs generalizing info with
  | nil => rfl
  | cons x xs ih => exact (ih (add info x)).trans (h info x)

theorem header_addMembers (u : SourceUnit) (info : TypeInfo) (body : Place) :
    (u.addMembers info body).header = info.header := by
  refine foldl_header (fun info p => ?_) _ info
  unfold SourceUnit.addMember
  split
  · exact foldl_header (fun _ _ => by rfl) _ info
  · rfl
  · next isConstructor _ => cases isConstructor <;> rfl
  · rfl
  · rfl
  · rfl

theorem header_addComponents (u : SourceUnit) (info : TypeInfo) (p : Place) :
    (u.addComponents info p).header = info.header :=
  foldl_header (fun _ _ => by rfl) _ info

theorem addMembers_qualifiedName (u : SourceUnit) (info : TypeInfo) (body : Place) :
    (u.addMembers info body).qualifiedName = info.qualifiedName
      ∧ (u.addMembers info body).unit = info.unit :=
  have h := header_addMembers u info body
  ⟨(congrArg TypeInfo.qualifiedName h :), (congrArg TypeInfo.unit h :)⟩

theorem header_declaredType (u : SourceUnit) (unit : Nat) (imports : Imports) (around : Around)
    (p : Place) (kind : TypeKind) (name body : Place) :
    (Indexing.declaredType u unit imports around p kind name body).header
      = { qualifiedName := Indexing.declaredName imports around (u.text name), name := u.text name,
          kind, enclosing := around.owner, isLocal := around.member.isSome, unit,
          superTexts := u.superTexts p, typeParams := u.typeParameters p } := by
  refine (header_addMembers u _ body).trans ?_
  split
  · exact header_addComponents u _ p
  · rfl

theorem declaredType_qualifiedName (u : SourceUnit) (unit : Nat) (imports : Imports)
    (around : Around) (p : Place) (kind : TypeKind) (name body : Place) :
    let info := Indexing.declaredType u unit imports around p kind name body
    info.qualifiedName = Indexing.declaredName imports around (u.text name) ∧ info.unit = unit :=
  have h := header_declaredType u unit imports around p kind name body
  ⟨(congrArg TypeInfo.qualifiedName h :), (congrArg TypeInfo.unit h :)⟩

/-! ## Members -/

def SourceUnit.memberFieldNames (u : SourceUnit) (p : Place) : List String :=
  match Construct.of p with
  | .field _ => p.declarators.map fun (_, name) => u.text name
  | .enumConstant name _ => [u.text name]
  | _ => []

/-- The method is declared at `p`, a member of the type `owner`. -/
inductive SourceUnit.DeclaresMethod (u : SourceUnit) (owner : String) (p : Place) : MethodInfo → Prop
  | method {name : Place} {params body : Option Place} {isConstructor : Bool}
      (hof : Construct.of p = .method name params body isConstructor) :
      DeclaresMethod u owner p (u.methodInfo owner p name params isConstructor)
  | element {m : MethodInfo} {name : Place} (hof : Construct.of p = .elementDecl name)
      (hname : m.name = u.text name) (hkey : m.key = u.memberKey owner p) : DeclaresMethod u owner p m

/-- The members that are held of a type come from the named components and the places. -/
structure TypeInfo.MembersFrom (u : SourceUnit) (components : List String) (places : List Place)
    (info : TypeInfo) : Prop where
  field : ∀ name f, info.fields[name]? = some f → f.key = info.qualifiedName ++ "." ++ name
    ∧ (name ∈ components ∨ ∃ p ∈ places, name ∈ u.memberFieldNames p)
  method : ∀ m ∈ info.methods, (m.name ∈ components ∧ m.key = info.qualifiedName ++ "." ++ m.name)
    ∨ ∃ p ∈ places, u.DeclaresMethod info.qualifiedName p m
  memberType : ∀ name key, info.memberTypes[name]? = some key →
    key = info.qualifiedName ++ "." ++ name ∧ ∃ p ∈ places, ∃ kind nameNode body,
      Construct.of p = .typeDecl kind nameNode body ∧ u.text nameNode = name

namespace TypeInfo.MembersFrom

variable {u : SourceUnit} {components : List String} {places : List Place} {info : TypeInfo}

/-- A type of which nothing but the header is held. -/
theorem header (u : SourceUnit) (components : List String) (places : List Place)
    (h : info.header = info) : info.MembersFrom u components places := by
  rw [← h]
  exact ⟨by simp [TypeInfo.header], by simp [TypeInfo.header], by simp [TypeInfo.header]⟩

section

variable (h : info.MembersFrom u components places)

include h

theorem addField {name : String} (typeText : String)
    (hname : name ∈ components ∨ ∃ p ∈ places, name ∈ u.memberFieldNames p) :
    (info.addField name typeText).MembersFrom u components places := by
  refine { h with field := fun name' f hf => ?_ }
  simp only [TypeInfo.addField, Std.TreeMap.getElem?_insert] at hf ⊢
  split at hf
  · next heq =>
      cases hf
      rw [← Std.LawfulEqCmp.eq_of_compare heq]
      exact ⟨rfl, hname⟩
  · exact h.field name' f hf

theorem addMethod {m : MethodInfo}
    (hm : (m.name ∈ components ∧ m.key = info.qualifiedName ++ "." ++ m.name)
      ∨ ∃ p ∈ places, u.DeclaresMethod info.qualifiedName p m) :
    (info.addMethod m).MembersFrom u components places := by
  refine { h with method := fun m' hm' => ?_ }
  rcases List.mem_append.mp hm' with hm' | hm'
  · exact h.method m' hm'
  · rw [List.mem_singleton.mp hm']
    exact hm

theorem addMember {p : Place} (hp : p ∈ places) :
    (u.addMember info p).MembersFrom u components places := by
  unfold SourceUnit.addMember
  split
  · next hof =>
      refine List.foldlRecOn (motive := MembersFrom u components places) _ _ h ?_
      rintro info h ⟨d, name⟩ hd
      refine h.addField _ (.inr ⟨p, hp, ?_⟩)
      simp only [SourceUnit.memberFieldNames, hof]
      exact List.mem_map_of_mem (f := fun (x : Place × Place) => u.text x.2) hd
  · next hof => exact h.addField _ (.inr ⟨p, hp, by simp [SourceUnit.memberFieldNames, hof]⟩)
  · next isConstructor hof =>
      refine addMethod ?_ (.inr ⟨p, hp, ?_⟩)
      · cases isConstructor with
        | true => exact h
        | false => exact { h with method := fun m hm => h.method m (List.mem_filter.mp hm).1 }
      · cases isConstructor <;> exact .method hof
  · next hof => exact h.addMethod (.inr ⟨p, hp, .element hof rfl rfl⟩)
  · next hof =>
      refine { h with memberType := fun name' key hkey => ?_ }
      simp only [TypeInfo.addMemberType, Std.TreeMap.getElem?_insert] at hkey ⊢
      split at hkey
      · next heq =>
          cases hkey
          cases Std.LawfulEqCmp.eq_of_compare heq
          exact ⟨rfl, p, hp, _, _, _, hof, rfl⟩
      · exact h.memberType name' key hkey
  · exact h

end

theorem addMembers {body : Place} (h : info.MembersFrom u components body.bodyMembers) :
    (u.addMembers info body).MembersFrom u components body.bodyMembers :=
  List.foldlRecOn (motive := MembersFrom u components body.bodyMembers) _ _ h
    fun _ h _ hp => h.addMember hp

/-- What is entered for a type declared by name. -/
theorem declaredType (u : SourceUnit) (unit : Nat) (imports : Imports) (around : Around) (p : Place)
    (kind : TypeKind) (name body : Place) :
    (Indexing.declaredType u unit imports around p kind name body).MembersFrom u
      (if kind = .recordType then (u.recordComponents p).map (·.2) else []) body.bodyMembers := by
  refine addMembers ?_
  split
  · refine List.foldlRecOn (motive := MembersFrom u _ _) _ _ (header u _ _ rfl) ?_
    rintro info h ⟨type, component⟩ hmem
    have hname := List.mem_map_of_mem (f := Prod.snd) hmem
    exact (h.addMethod (.inl ⟨hname, rfl⟩)).addField _ (.inl hname)
  · exact header u _ _ rfl

end TypeInfo.MembersFrom

end Legible
