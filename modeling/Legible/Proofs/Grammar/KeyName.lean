import Legible.Proofs.Grammar.Parts
import Legible.Proofs.Text.Dotted
import Std.Data.String.ToNat

/-!
# The name in a key

A key ends in the name of what it identifies, behind which a method has its parameter types and a
variable has a word in parentheses. `keyName` reads the name off a key. Of every way in which a key
is made there is a lemma that says that the name is read back.
-/

namespace Legible

variable {key name : String}

def keyName (key : String) : String :=
  let back := key.toList.reverse
  let named :=
    match back with
    | ')' :: rest => (rest.dropWhile (· ≠ '(')).tail
    | _ => back
  String.ofList (named.takeWhile (· ≠ '.')).reverse

/-! ## Plain names -/

section PlainName

variable {c : Char}

section

variable (h : isPlainName name = true)

include h

theorem isNameChar_of_isPlainName (hc : c ∈ name.toList) : isNameChar c = true := by
  simp only [isPlainName, Bool.and_eq_true, List.all_eq_true] at h
  exact h.2 c hc

theorem toList_ne_nil_of_isPlainName : name.toList ≠ [] := by
  simp only [isPlainName, Bool.and_eq_true, Bool.not_eq_true', List.isEmpty_eq_false_iff] at h
  exact h.1

theorem isBlank_of_isPlainName (hc : c ∈ name.toList) : Text.isBlank c = false := by
  have := isNameChar_of_isPlainName h hc
  simp only [isNameChar, Bool.and_eq_true, Bool.not_eq_true'] at this
  exact this.1

theorem notMem_of_isPlainName {d : Char} (hd : isNameChar d = false) : d ∉ name.toList := by
  intro hmem
  rw [isNameChar_of_isPlainName h hmem] at hd
  cases hd

end

theorem isNameChar_of_isDigit (h : c.isDigit = true) : isNameChar c = true := by
  have hdigits : ∀ n < 58, 48 ≤ n → isNameChar (Char.ofNat n) = true := by decide
  obtain ⟨hlow, hhigh⟩ := Char.isDigit_iff_toNat.mp h
  rw [← Char.ofNat_toNat c]
  exact hdigits c.toNat (Nat.lt_succ_of_le hhigh) hlow

end PlainName

/-! ## Reading the name -/

theorem keyName_eq_simpleName (h : key.toList.getLast? ≠ some ')') :
    keyName key = Text.simpleName key := by
  simp only [keyName]
  split
  · next rest hback =>
      have : key.toList.getLast? = some ')' := by
        rw [← List.head?_reverse, hback]
        rfl
      exact absurd this h
  · rfl

theorem keyName_parenthesized (front : String) {args : String} (h : '(' ∉ args.toList) :
    keyName (front ++ "(" ++ args ++ ")") = Text.simpleName front := by
  have hback : (front ++ "(" ++ args ++ ")").toList.reverse
      = ')' :: (args.toList.reverse ++ '(' :: front.toList.reverse) := by simp
  have hdrop : (args.toList.reverse ++ '(' :: front.toList.reverse).dropWhile (· ≠ '(')
      = '(' :: front.toList.reverse := by
    rw [List.dropWhile_append_of_pos (Text.ne_of_mem_reverse h),
      List.dropWhile_cons_of_neg (by simp)]
  simp only [keyName, hback, hdrop, List.tail_cons]
  rfl

theorem getLast?_ne_of_simpleName (h : (Text.simpleName key).toList.getLast? ≠ some ')') :
    key.toList.getLast? ≠ some ')' := by
  obtain ⟨-, heq | ⟨left, hkey⟩⟩ := Text.exists_simpleName key
  · rwa [← heq] at h
  · cases hname : (Text.simpleName key).toList with
    | nil => simp [hkey, hname]
    | cons c name =>
      rw [hkey, List.getLast?_append_of_ne_nil _ (by simp),
        List.getLast?_cons_of_ne_nil (by simp [hname])]
      exact h

theorem keyName_of_getLast?_simpleName (h : (Text.simpleName key).toList.getLast? ≠ some ')') :
    keyName key = Text.simpleName key :=
  keyName_eq_simpleName (getLast?_ne_of_simpleName h)

/-! ## Taking keys apart -/

/-- What stands around the last occurrence of an element is determined. -/
theorem eq_of_append_cons_eq {α : Type} {a : α} {l l' t t' : List α}
    (h : l ++ a :: t = l' ++ a :: t') (ht : a ∉ t) (ht' : a ∉ t') : l = l' ∧ t = t' := by
  rcases List.append_eq_append_iff.mp h with ⟨as, rfl, heq⟩ | ⟨as, rfl, heq⟩
  · cases as with
    | nil => simpa using heq
    | cons b as =>
      obtain ⟨-, rfl⟩ := List.cons.inj heq
      simp at ht
  · cases as with
    | nil => simpa using heq.symm
    | cons b as =>
      obtain ⟨-, rfl⟩ := List.cons.inj heq
      simp at ht'

/-- The parts around the last dot are determined. -/
theorem dotted_inj {owner owner' name' : String} (h : owner ++ "." ++ name = owner' ++ "." ++ name')
    (hname : '.' ∉ name.toList) (hname' : '.' ∉ name'.toList) : owner = owner' ∧ name = name' := by
  have hlist := congrArg String.toList h
  simp only [String.toList_append, List.append_assoc] at hlist
  obtain ⟨howner, hsame⟩ := eq_of_append_cons_eq hlist hname hname'
  exact ⟨String.toList_inj.mp howner, String.toList_inj.mp hsame⟩

/-! ## Names of keys -/

section Keys

theorem simpleName_of_isPlainName (h : isPlainName name = true) : Text.simpleName name = name :=
  Text.simpleName_of_notMem (notMem_of_isPlainName h rfl)

theorem simpleName_dotted (owner : String) (h : isPlainName name = true) :
    Text.simpleName (owner ++ "." ++ name) = name := by
  rw [Text.simpleName_append, simpleName_of_isPlainName h]

theorem getLast?_append_ne (left : String) (h : isPlainName name = true) :
    (left ++ name).toList.getLast? ≠ some ')' := by
  rw [String.toList_append, List.getLast?_append_of_ne_nil _ (toList_ne_nil_of_isPlainName h)]
  intro hlast
  exact notMem_of_isPlainName h (d := ')') rfl (List.mem_of_getLast? hlast)

theorem getLast?_ne_of_plain_simpleName (h : isPlainName (Text.simpleName key) = true) :
    key.toList.getLast? ≠ some ')' :=
  getLast?_ne_of_simpleName (by simpa using getLast?_append_ne "" h)

theorem keyName_of_plain_simpleName (h : isPlainName (Text.simpleName key) = true) :
    keyName key = Text.simpleName key :=
  keyName_of_getLast?_simpleName (by simpa using getLast?_append_ne "" h)

theorem keyName_dotted (owner : String) (h : isPlainName name = true) :
    keyName (owner ++ "." ++ name) = name := by
  rw [keyName_eq_simpleName (getLast?_append_ne _ h), simpleName_dotted owner h]

theorem keyName_methodKey (owner : String) (h : isPlainName name = true) {types : List String}
    (htypes : ∀ type ∈ types, '(' ∉ type.toList) : keyName (methodKey owner name types) = name := by
  rw [methodKey, keyName_parenthesized _ (Text.notMem_intercalate (by decide) htypes),
    simpleName_dotted owner h]

end Keys

/-! ## The last name of a text -/

section LastName

variable {s : String} {pre : List Char}

/-- A text is trimmed up to a name at its end. -/
theorem toList_trim_of_isPlainName (hs : s.toList = pre ++ name.toList)
    (h : isPlainName name = true) :
    (Text.trim s).toList = pre.dropWhile Text.isBlank ++ name.toList := by
  obtain ⟨c, rest, hname⟩ := List.exists_cons_of_ne_nil (toList_ne_nil_of_isPlainName h)
  have hblank : ∀ d ∈ c :: rest, Text.isBlank d = false := fun d hd =>
    isBlank_of_isPlainName h (hname ▸ hd)
  rw [hname] at hs ⊢
  exact Text.toList_trim hs (hblank c (List.mem_cons_self ..))
    fun d hd => hblank d (List.mem_cons_of_mem _ hd)

theorem trim_of_isPlainName (h : isPlainName name = true) : Text.trim name = name := by
  rw [← String.toList_inj, toList_trim_of_isPlainName (List.nil_append _).symm h]
  rfl

theorem simpleName_trim (hs : s.toList = pre ++ '.' :: name.toList) (h : isPlainName name = true) :
    Text.simpleName (Text.trim s) = name := by
  have htrim := Text.toList_trim hs (by decide) fun d hd => isBlank_of_isPlainName h hd
  rw [Text.simpleName_of_toList htrim (notMem_of_isPlainName h rfl), String.ofList_toList]

/-- A name after a blank is not the last name of a text, unless nothing but blanks stands before
it. -/
theorem simpleName_trim_blank {sep : Char} (hsep : Text.isBlank sep = true)
    (hs : s.toList = pre ++ sep :: name.toList) (h : isPlainName name = true) :
    Text.simpleName (Text.trim s) = name
      ∨ isPlainName (Text.simpleName (Text.trim s)) = false
        ∧ (Text.simpleName (Text.trim s)).toList.getLast? ≠ some ')' := by
  have htrim : (Text.trim s).toList = (pre ++ [sep]).dropWhile Text.isBlank ++ name.toList :=
    toList_trim_of_isPlainName (by simp [hs]) h
  rw [List.dropWhile_append] at htrim
  split at htrim
  · have htrim : Text.trim s = name := by
      rw [← String.toList_inj, htrim]
      simp [hsep]
    exact .inl (by rw [htrim, simpleName_of_isPlainName h])
  · -- the blank stays, and there is no dot behind it
    have hdot : '.' ∉ sep :: name.toList := by
      rw [List.mem_cons, not_or]
      refine ⟨?_, notMem_of_isPlainName h rfl⟩
      rintro rfl
      cases hsep
    obtain ⟨left, hleft⟩ :=
      Text.simpleName_of_append_notMem (htrim.trans (List.append_assoc ..)) hdot
    refine .inr ⟨?_, ?_⟩
    · rw [Bool.eq_false_iff]
      intro hplain
      have := isBlank_of_isPlainName hplain (c := sep) (by simp [hleft])
      simp [hsep] at this
    · rw [hleft, List.getLast?_append_of_ne_nil _ (by simp),
        List.getLast?_append_of_ne_nil _ (toList_ne_nil_of_isPlainName h)]
      simpa using getLast?_append_ne "" h

end LastName

/-! ## Keys of declarations -/

section Declarations

variable {u : SourceUnit} {p q : Place} {type : String}

theorem mem_brackets {dims : Nat} {c : Char} (h : c ∈ (brackets dims).toList) :
    c = '[' ∨ c = ']' := by
  unfold brackets at h
  induction dims with
  | zero => simp at h
  | succ dims ih =>
    rw [List.replicate_succ, String.join_cons, String.toList_append, List.mem_append] at h
    rcases h with h | h
    · simpa using h
    · exact ih h

/-- The type of a parameter has nothing in it that ends a parameter list or starts a comment. -/
theorem notMem_parameterType? (h : ∀ p ∈ u.root.places, u.parameterOK p = true)
    (hp : p ∈ u.root.places) (hparam : p.kind = "formal_parameter" ∨ p.kind = "spread_parameter"
      ∨ SourceUnit.inParameterList p = true) (htype : u.parameterType? p = some type) :
    '(' ∉ type.toList ∧ '/' ∉ type.toList := by
  have hok := h p hp
  obtain ⟨q, hq, rfl⟩ := Option.map_eq_some_iff.mp htype
  have hparam : (p.kind == "formal_parameter" || p.kind == "spread_parameter"
      || SourceUnit.inParameterList p) = true := by
    rcases hparam with h | h | h <;> simp [h]
  rw [SourceUnit.parameterOK, hparam, hq] at hok
  have hall : ∀ c ∈ (u.typeText q).toList, c ≠ '/' ∧ c ≠ '(' := by
    simpa [List.all_eq_true] using hok
  simp only [String.toList_append, List.mem_append, not_or]
  refine ⟨⟨fun h => (hall _ h).2 rfl, fun h => ?_⟩, fun h => (hall _ h).1 rfl, fun h => ?_⟩
  · rcases mem_brackets h with h | h <;> cases h
  · rcases mem_brackets h with h | h <;> cases h

theorem mem_places_of_mem_outward (hp : p ∈ u.root.places) (hq : q ∈ p.outward) :
    q ∈ u.root.places := by
  obtain ⟨n, above⟩ := p
  have hgo : ∀ (above : List Node) (n : Node), (⟨n, above⟩ : Place) ∈ u.root.places →
      ∀ q ∈ Place.outward.go above, q ∈ u.root.places := by
    intro above
    induction above with
    | nil => intro n _ q hq; cases hq
    | cons m above ih =>
      intro n hn q hq
      have hm := (Place.mem_places_of_parent? hn rfl).1
      rcases List.mem_cons.mp hq with rfl | hq
      · exact hm
      · exact ih m hm q hq
  rcases List.mem_cons.mp hq with rfl | hq
  · exact hp
  · exact hgo above n hp q hq

/-- A component of a record is declared by a parameter of it. -/
theorem exists_of_mem_recordComponents (hp : p ∈ u.root.places)
    (h : (type, name) ∈ u.recordComponents p) :
    ∃ param name', param ∈ u.root.places ∧ SourceUnit.inParameterList param = true
      ∧ u.parameterType? param = some type ∧ param.declaredName? = some name'
      ∧ u.text name' = name := by
  unfold SourceUnit.recordComponents at h
  split at h
  · cases h
  · next params hparams =>
      obtain ⟨record, hrecord, hchild⟩ := Option.bind_eq_some_iff.mp hparams
      have hrecord := mem_places_of_mem_outward hp (List.mem_of_find?_eq_some hrecord)
      obtain ⟨param, hparam, hmem⟩ := List.mem_filterMap.mp h
      have hparam := Place.mem_children_of_mem_namedChildren hparam
      simp only [Option.bind_eq_bind, Option.bind_eq_some_iff, Option.some.injEq,
        Prod.mk.injEq] at hmem
      obtain ⟨_, htype, name', hname, rfl, rfl⟩ := hmem
      exact ⟨param, name', Place.mem_places_of_mem_children
        (Place.mem_places_of_mem_children hrecord (Place.mem_children_of_child? hchild)) hparam,
        inParameterList_of_mem hparam (.inl (Place.role_of_child? hchild)), htype, hname, rfl⟩

theorem notMem_methodParameters (h : ∀ p ∈ u.root.places, u.parameterOK p = true)
    (hp : p ∈ u.root.places) {params : Option Place} (hparams : params = p.child? "parameters")
    (htype : type ∈ u.methodParameters p params) : '(' ∉ type.toList ∧ '/' ∉ type.toList := by
  subst hparams
  unfold SourceUnit.methodParameters at htype
  split at htype
  · obtain ⟨⟨type', name⟩, hmem, rfl⟩ := List.mem_map.mp htype
    obtain ⟨param, name', hparam, hlist, htype, -, -⟩ := exists_of_mem_recordComponents hp hmem
    exact notMem_parameterType? h hparam (.inr (.inr hlist)) htype
  · split at htype
    · next params hparams =>
        obtain ⟨param, hparam, htype⟩ := List.mem_filterMap.mp htype
        obtain ⟨hparam, hkind⟩ := List.mem_filter.mp hparam
        have hkind : param.kind = "formal_parameter" ∨ param.kind = "spread_parameter" := by
          simpa using hkind
        refine notMem_parameterType? h (Place.mem_places_of_mem_children
          (Place.mem_places_of_mem_children hp (Place.mem_children_of_child? hparams))
          (Place.mem_children_of_mem_namedChildren hparam)) ?_ htype
        exact hkind.elim .inl fun h => .inr (.inl h)
    · cases htype

def Place.DeclaresMethod (p name : Place) : Prop :=
  (∃ params body, Construct.of p = .method name params body false)
    ∨ Construct.of p = .elementDecl name

theorem Place.DeclaresMethod.child? {name : Place} (h : p.DeclaresMethod name) :
    p.child? "name" = some name ∧ p.kind ∉ qualifiedNameParents := by
  rcases h with ⟨params, body, hof⟩ | hof
  · obtain ⟨-, hkind, hname, -⟩ := Construct.partsOf hof
    exact ⟨hname, by rw [hkind rfl]; decide⟩
  · obtain ⟨hkind, hname⟩ := Construct.partsOf hof
    exact ⟨hname, by rw [hkind]; decide⟩

/-- The key of a method ends in the name of the method. -/
theorem keyName_memberKey (h : u.tidyOK = true) (hp : p ∈ u.root.places) {name : Place}
    (hmethod : p.DeclaresMethod name) (owner : String) :
    keyName (u.memberKey owner p) = u.text name ∧ isPlainName (u.text name) = true := by
  have hplain := (parted_of_tidyOK h).isPlainName_name hp hmethod.child?.1 hmethod.child?.2
  refine ⟨?_, hplain⟩
  rcases hmethod with ⟨params, body, hof⟩ | hof
  · obtain ⟨-, -, -, hparams⟩ := Construct.partsOf hof
    simp only [SourceUnit.memberKey, hof, Bool.false_eq_true, if_false]
    exact keyName_methodKey owner hplain fun type htype =>
      (notMem_methodParameters (fun _ => parameterOK_of_tidyOK h) hp hparams htype).1
  · simp only [SourceUnit.memberKey, hof]
    exact keyName_methodKey owner hplain nofun

end Declarations

end Legible
