import Legible.Binding.Binder
import Legible.Proofs.Grammar.KeyName

/-!
# Keys of variables

A variable has a key of the form `member.name(…)`, and so has a method: `owner.name(…)`. They are
told apart by what stands before the name. A variable belongs to a member: to a method, whose key
ends in a parenthesis, or to the code outside of methods, whose name is in angle brackets. A method
belongs to a type, whose key ends in an identifier (`not_isMemberKey`).
-/

namespace Legible

/-- The key is that of a member that code can belong to. -/
def IsMemberKey (key : String) : Prop :=
  key.toList.getLast? = some ')' ∨ '<' ∈ (Text.simpleName key).toList

/-- A key of the form that the keys of variables and methods have. -/
def callKey (owner name tail : String) : String := owner ++ "." ++ name ++ "(" ++ tail ++ ")"

/-! ## Taking keys apart -/

section CallKey

variable {owner owner' name name' tail tail' : String}

theorem toList_callKey (owner name tail : String) : (callKey owner name tail).toList
    = (owner.toList ++ '.' :: name.toList) ++ '(' :: (tail.toList ++ [')']) := by
  simp [callKey]

/-- The parts of a key are determined. -/
theorem callKey_inj (h : callKey owner name tail = callKey owner' name' tail')
    (hname : '.' ∉ name.toList) (hname' : '.' ∉ name'.toList)
    (htail : '(' ∉ tail.toList) (htail' : '(' ∉ tail'.toList) :
    owner = owner' ∧ name = name' ∧ tail = tail' := by
  have hlist := congrArg String.toList h
  rw [toList_callKey, toList_callKey] at hlist
  obtain ⟨hfront, hback⟩ := eq_of_append_cons_eq hlist (by simpa using htail) (by simpa using htail')
  obtain ⟨howner, hsame⟩ := eq_of_append_cons_eq hfront hname hname'
  exact ⟨String.toList_inj.mp howner, String.toList_inj.mp hsame,
    String.toList_inj.mp (List.append_cancel_right hback)⟩

theorem getLast?_callKey (owner name tail : String) :
    (callKey owner name tail).toList.getLast? = some ')' := by
  rw [callKey, String.toList_append, List.getLast?_append]
  rfl

end CallKey

/-! ## Members -/

theorem isMemberKey_initializerKey (owner : String) (isStatic : Bool) :
    IsMemberKey (initializerKey owner isStatic) := by
  refine .inr ?_
  cases isStatic
  · rw [initializerKey, if_neg Bool.false_ne_true, simpleName_dotted _ (by decide)]
    decide
  · rw [initializerKey, if_pos rfl, simpleName_dotted _ (by decide)]
    decide

theorem methodKey_eq (owner name : String) (types : List String) :
    methodKey owner name types = callKey owner name (",".intercalate types) := rfl

theorem isMemberKey_memberKey (u : SourceUnit) (owner : String) (p : Place) :
    IsMemberKey (u.memberKey owner p) := by
  unfold SourceUnit.memberKey
  split
  · exact .inl (getLast?_callKey ..)
  · exact .inl (getLast?_callKey ..)
  · exact isMemberKey_initializerKey ..
  · exact isMemberKey_initializerKey ..
  · exact isMemberKey_initializerKey ..

theorem not_isMemberKey {key : String} (hplain : isPlainName (Text.simpleName key) = true)
    (hangle : '<' ∉ (Text.simpleName key).toList) : ¬ IsMemberKey key := by
  rintro (hlast | hmem)
  · exact getLast?_ne_of_plain_simpleName hplain hlast
  · exact hangle hmem

/-! ## Variables -/

namespace Binder

variable {b : Binder}

def variableTail (b : Binder) (kind : SymbolKind) (name : String) : String :=
  match kind with
  | .parameter => "param"
  | _ => "local#" ++ toString (b.localCount b.currentMember name + 1)

theorem variableKey_eq (b : Binder) (kind : SymbolKind) (name : String) :
    b.variableKey kind name = callKey b.currentMember name (b.variableTail kind name) := by
  rw [← String.toList_inj]
  cases kind <;> simp [variableKey, callKey, variableTail]

theorem notMem_variableTail (b : Binder) (kind : SymbolKind) (name : String) :
    '(' ∉ (b.variableTail kind name).toList := by
  cases kind
  case parameter => exact show '(' ∉ "param".toList by decide
  all_goals exact Text.notMem_append_number (by decide) rfl _

end Binder

end Legible
