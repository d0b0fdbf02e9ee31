import Legible.Proofs.Index.Entries
import Legible.Proofs.Index.Members
import Legible.Proofs.Loop

/-!
# Chains of enclosing types

The name of a type is made of the name of the type around it, of the key of the member that it is
local to, and of more. So the type around has a shorter name, whichever of several types of one name
the index has kept, and going outward comes to an end (`Index.Nested.induction`). What is searched
for a name in at most as many types as there are is therefore what the loops that go outward without
a bound find (`enclosing_chains_end`).
-/

namespace Legible

variable {ix : Index}

/-- The one text is the beginning of the other, and not all of it. -/
def ProperPrefix (s t : String) : Prop := s.toList <+: t.toList ∧ s ≠ t

/-! ## Loops -/

namespace Index

variable {name : Option String}

/-- One step of the search for a simple name from a type outward. -/
def lookupStep (ix : Index) (inherited : Bool) (name : String) :
    Option String → Option String ⊕ Option String
  | none => .inl none
  | some key =>
    match ix.type? key with
    | none => .inl none
    | some info =>
      if info.name == name then .inl (some key)
      else
        match if inherited then ix.findMemberType? key name else info.memberTypes[name]? with
        | some member => .inl (some member)
        | none => .inr info.enclosing

/-- One step of the search for a type parameter from a type outward. -/
def typeParamStep (ix : Index) (name : String) : Option TypeInfo → Bool ⊕ Option TypeInfo
  | none => .inl false
  | some info =>
    if info.typeParams.contains name then .inl true else .inr (info.enclosing.bind ix.type?)

/-- Types stand in types of shorter names, and the searches outward stop. -/
structure ChainsEnd (ix : Index) : Prop where
  inside : ∀ key info, ix.type? key = some info → ∀ outer, info.enclosing = some outer →
    ProperPrefix outer info.qualifiedName
  lookup : ∀ unit context name inherited, ∃ found ∈ loop (ix.lookupStep inherited name) context,
    ix.lookupSimple? unit context name inherited
      = found.or ((ix.imports? unit).bind fun imports => ix.importedName? imports name)
  typeParam : ∀ owner name, ix.isTypeParam owner name ∈ loop (ix.typeParamStep name) (some owner)

/-! ## Going outward -/

/-- Every type is held under its name, which begins with that of the type around it. -/
structure Nested (ix : Index) : Prop where
  key : ∀ key info, ix.type? key = some info → info.qualifiedName = key
  inside : ∀ key info, ix.type? key = some info → ∀ outer, info.enclosing = some outer →
    ProperPrefix outer info.qualifiedName

/-- The number of types whose names are not longer than the given one. -/
def rank (ix : Index) (name : Option String) : Nat :=
  name.elim 0 fun key => ix.types.keys.countP (·.length ≤ key.length)

theorem rank_le_size (ix : Index) (name : Option String) : ix.rank name ≤ ix.size := by
  cases name with
  | none => exact Nat.zero_le _
  | some key =>
    rw [size, ← Std.TreeMap.length_keys]
    exact List.countP_le_length

theorem enclosingTypes_eq_nil (hnone : name.bind ix.type? = none) :
    ix.enclosingTypes name = [] := by
  rw [enclosingTypes]
  cases ix.size <;> simp [enclosingFrom, hnone]

namespace Nested

variable {ix : Index} {key : String} {info : TypeInfo} (h : ix.Nested)

include h

theorem length_lt (hinfo : ix.type? key = some info) {outer : String}
    (houter : info.enclosing = some outer) : outer.length < key.length := by
  obtain ⟨hbegins, hne⟩ := h.inside key info hinfo outer houter
  rw [h.key key info hinfo] at hbegins hne
  refine Nat.lt_of_le_of_ne hbegins.length_le fun heq => hne ?_
  exact String.toList_inj.mp (hbegins.eq_of_length heq)

theorem induction {motive : Option String → Prop}
    (stop : ∀ name : Option String, name.bind ix.type? = none → motive name)
    (next : ∀ key info, ix.type? key = some info → motive info.enclosing → motive (some key))
    (name : Option String) : motive name := by
  cases name with
  | none => exact stop none rfl
  | some key =>
    induction hlength : key.length using Nat.strongRecOn generalizing key with
    | _ length ih =>
      cases hinfo : ix.type? key with
      | none => exact stop (some key) hinfo
      | some info =>
        refine next key info hinfo ?_
        cases houter : info.enclosing with
        | none => exact stop none rfl
        | some outer =>
          exact ih _ (hlength ▸ h.length_lt hinfo houter) outer rfl

theorem rank_enclosing_lt (hinfo : ix.type? key = some info) :
    ix.rank info.enclosing < ix.rank (some key) := by
  have hkey : key ∈ ix.types.keys := by
    rw [Std.TreeMap.mem_keys, Std.TreeMap.mem_iff_isSome_getElem?]
    exact Option.isSome_iff_exists.mpr ⟨info, hinfo⟩
  cases houter : info.enclosing with
  | none => exact List.countP_pos_iff.mpr ⟨key, hkey, by simp⟩
  | some outer =>
    have hlt := h.length_lt hinfo houter
    -- the type itself counts, and did not for the shorter name
    have hsplit : ix.rank (some key) = _ := List.countP_eq_countP_filter_add ix.types.keys
      (fun k => decide (k.length ≤ key.length)) fun k => decide (k.length ≤ outer.length)
    have hshort : (ix.types.keys.filter fun k => decide (k.length ≤ outer.length)).countP
        (fun k => decide (k.length ≤ key.length)) = ix.rank (some outer) := by
      rw [rank, Option.elim_some, List.countP_filter]
      refine List.countP_congr fun k _ => ?_
      simp only [Bool.and_eq_true, decide_eq_true_eq, and_iff_right_iff_imp]
      omega
    have hself : 0 < (ix.types.keys.filter fun k => !decide (k.length ≤ outer.length)).countP
        fun k => decide (k.length ≤ key.length) :=
      List.countP_pos_iff.mpr ⟨key, List.mem_filter.mpr ⟨hkey, by simpa using hlt⟩, by simp⟩
    omega

/-- Going outward takes no more steps than there are types. -/
theorem enclosingFrom_eq {steps steps' : Nat} (hsteps : ix.rank name ≤ steps)
    (hsteps' : ix.rank name ≤ steps') :
    ix.enclosingFrom steps name = ix.enclosingFrom steps' name := by
  induction name using h.induction generalizing steps steps' with
  | stop name hnone => cases steps <;> cases steps' <;> simp [enclosingFrom, hnone]
  | next key info hinfo ih =>
    have hlt := h.rank_enclosing_lt hinfo
    cases steps with
    | zero => omega
    | succ steps =>
      cases steps' with
      | zero => omega
      | succ steps' =>
        rw [enclosingFrom, enclosingFrom, Option.bind_some, hinfo]
        exact congrArg (info :: ·) (ih (by omega) (by omega))

theorem enclosingTypes_eq_cons (hinfo : ix.type? key = some info) :
    ix.enclosingTypes (some key) = info :: ix.enclosingTypes info.enclosing := by
  have hle := ix.rank_le_size (some key)
  rw [enclosingTypes, h.enclosingFrom_eq hle (Nat.le_succ_of_le hle), enclosingFrom,
    Option.bind_some, hinfo]
  rfl

/-! ## What the loops find -/

theorem mem_loop_lookupStep (inherited : Bool) (name : String) (context : Option String) :
    (ix.enclosingTypes context).findSome? (ix.nameWithin? inherited name)
      ∈ loop (ix.lookupStep inherited name) context := by
  induction context using h.induction with
  | stop context hnone =>
    rw [enclosingTypes_eq_nil hnone]
    refine mem_loop_of_stop ?_
    cases context with
    | none => rfl
    | some key => rw [lookupStep, show ix.type? key = none from hnone, List.findSome?_nil]
  | next key info hinfo ih =>
    rw [h.enclosingTypes_eq_cons hinfo, List.findSome?_cons, nameWithin?, h.key key info hinfo]
    by_cases hname : info.name == name
    · exact mem_loop_of_stop (by simp [lookupStep, hinfo, hname])
    · cases hmember : if inherited then ix.findMemberType? key name else info.memberTypes[name]? with
      | some member => exact mem_loop_of_stop (by simp [lookupStep, hinfo, hname, hmember])
      | none =>
        refine mem_loop_of_next ?_ (by simpa [hname, hmember] using ih)
        simp [lookupStep, hinfo, hname, hmember]

omit h in
theorem mem_loop_of_enclosing {owner : TypeInfo} {name : String}
    (hrest : (ix.enclosingTypes owner.enclosing).any (·.typeParams.contains name)
      ∈ loop (ix.typeParamStep name) (owner.enclosing.bind ix.type?)) :
    (owner.typeParams.contains name
        || (ix.enclosingTypes owner.enclosing).any (·.typeParams.contains name))
      ∈ loop (ix.typeParamStep name) (some owner) := by
  cases hown : owner.typeParams.contains name with
  | true => exact mem_loop_of_stop (by rw [typeParamStep, hown, Bool.true_or, if_pos rfl])
  | false =>
    rw [Bool.false_or]
    exact mem_loop_of_next (by rw [typeParamStep, hown, if_neg Bool.false_ne_true]) hrest

theorem mem_loop_typeParamStep (owner : TypeInfo) (name : String) :
    ix.isTypeParam owner name ∈ loop (ix.typeParamStep name) (some owner) := by
  refine mem_loop_of_enclosing ?_
  induction owner.enclosing using h.induction with
  | stop outer hnone =>
    rw [hnone, enclosingTypes_eq_nil hnone]
    exact mem_loop_of_stop rfl
  | next key info hinfo ih =>
    rw [Option.bind_some, hinfo, h.enclosingTypes_eq_cons hinfo, List.any_cons]
    exact mem_loop_of_enclosing ih

theorem chainsEnd : ix.ChainsEnd where
  inside := h.inside
  lookup _ context name inherited := ⟨_, h.mem_loop_lookupStep inherited name context, rfl⟩
  typeParam := h.mem_loop_typeParamStep

end Nested

end Index

/-! ## The index of some units -/

theorem properPrefix_append {s m mark : String} (h : s.toList <+: m.toList)
    (hmark : mark.length ≠ 0) (rest : String) : ProperPrefix s (m ++ mark ++ rest) := by
  have hlt : s.length < (m ++ mark ++ rest).length := by
    have hle := h.length_le
    simp only [String.length_append, String.length_toList] at hle ⊢
    omega
  refine ⟨?_, fun heq => Nat.ne_of_lt hlt (congrArg String.length heq)⟩
  rw [String.toList_append, String.toList_append, List.append_assoc]
  exact h.trans (List.prefix_append ..)

theorem prefix_memberKey (u : SourceUnit) (owner : String) (p : Place) :
    owner.toList <+: (u.memberKey owner p).toList := by
  unfold SourceUnit.memberKey methodKey initializerKey
  split <;> simp only [String.toList_append, List.append_assoc] <;> exact List.prefix_append ..

/-- The member around belongs to the type around. -/
def Around.Joined (around : Around) : Prop :=
  ∀ member, around.member = some member →
    ∃ owner, around.owner = some owner ∧ owner.toList <+: member.toList

theorem Around.Joined.properPrefix {around : Around} (h : around.Joined) {owner : String}
    (howner : around.owner = some owner) (imports : Imports) (simple : String) :
    ProperPrefix owner (Indexing.declaredName imports around simple) := by
  unfold Indexing.declaredName
  cases hmember : around.member with
  | none =>
    rw [howner]
    exact properPrefix_append (List.prefix_refl _) (by decide) simple
  | some member =>
    obtain ⟨owner', howner', hbegins⟩ := h member hmember
    cases howner.symm.trans howner'
    exact properPrefix_append hbegins (by decide) simple

/-- Where the member around belongs to the type around, so it does below, and the types that are
entered have longer names than those around them. -/
theorem keeps_joined (u : SourceUnit) : Indexing.Keeps u u.imports (fun around _ => around.Joined)
    fun entry => ∀ outer, entry.2.enclosing = some outer →
      ProperPrefix outer entry.2.qualifiedName where
  child _ _ h _ _ := h
  member around p h _ _ := by
    intro member hmember
    rcases Option.or_eq_some_iff.mp hmember with hmember | ⟨-, hmember⟩
    · obtain ⟨owner, howner, rfl⟩ := Option.map_eq_some_iff.mp hmember
      exact ⟨owner, howner, prefix_memberKey u owner p⟩
    · exact h member hmember
  named around p h kind name body _ := by
    have hheader := header_declaredType u 0 u.imports around p kind name body
    refine ⟨fun outer houter => ?_, fun _ _ _ hmember => by cases hmember⟩
    rw [(declaredType_qualifiedName ..).1]
    exact h.properPrefix ((congrArg TypeInfo.enclosing hheader).symm.trans houter) ..
  unnamed around p _ _ body _ owner _ s superText := by
    refine ⟨fun outer houter => ?_, fun _ _ _ hmember => by cases hmember⟩
    have henclosing : some owner = some outer :=
      (congrArg TypeInfo.enclosing (header_addMembers u _ body)).symm.trans houter
    cases henclosing
    rw [Indexing.anonymousType, (addMembers_qualifiedName ..).1]
    exact properPrefix_append (List.prefix_refl _) (by decide) _

theorem nested_of_holds {units : List SourceUnit}
    (h : ix.Holds (fun _ entry => ∀ outer, entry.2.enclosing = some outer →
      ProperPrefix outer entry.2.qualifiedName) units) : ix.Nested where
  key key info hinfo := (h.type key info hinfo).1
  inside key info hinfo := by
    obtain ⟨-, _, _, entry, -, hinside, heq⟩ := h.type key info hinfo
    rw [heq]
    exact hinside

/-- In the index of any units a type stands in a type whose name is a proper prefix of its own, so
looking for a simple name or for a type parameter from any type outward stops. So it does while the
supertypes are being resolved. -/
theorem enclosing_chains_end (units : List SourceUnit) (names : List String) :
    (Index.build units).ChainsEnd
      ∧ (names.foldl Index.linkType (units.foldl Index.addUnit {})).ChainsEnd := by
  have hentries := fun u (_ : u ∈ units) =>
    Index.exists_entries_of (keeps_joined u) (fun _ hmember => by cases hmember)
  have hadded := Index.holds_addUnits hentries
  exact ⟨(nested_of_holds (hadded.linkAll _)).chainsEnd,
    (nested_of_holds (hadded.linkAll names)).chainsEnd⟩

end Legible
