import Legible.Proofs.Index.Lookup
import Legible.Proofs.Index.Rooted

/-!
# Where lookups lead

A lookup in the index of shaped units finds what is declared in them. A field or method that it
finds is a member of a type (`Index.Declares`), and a type that it finds is declared by name
(`Index.Names`), unless the text itself ends in the number of a type without a name
(`Index.Finds`).
-/

namespace Legible

/-- The key is that of a member of a type that is declared in one of the units. -/
def Index.Declares (units : List SourceUnit) (ix : Index) (key : String) : Prop :=
  ∃ unit u p owner, units[unit]? = some u ∧ p ∈ u.root.places
    ∧ ix.typeAt? unit p = some owner ∧ key ∈ u.memberKeys owner p

inductive Index.Finds (units : List SourceUnit) (ix : Index) (text key : String) : Prop
  | named (h : ix.Names units key)
  /-- A type without a name goes by the empty name and by its number. -/
  | numbered (n : Nat) (hkey : Text.simpleName key = "$" ++ toString n)
      (htext : text = "" ∨ Text.simpleName text = Text.simpleName key)

namespace Index.Rooted

variable {units : List SourceUnit} {ix : Index} {key text owner name outer : String}
  {info : TypeInfo} {unit : Nat}

theorem plain_of_names (h : ix.Rooted units) (hkey : ix.Names units key) :
    isPlainName (Text.simpleName key) = true := by
  obtain ⟨unit, _, p, _, _, _, _, _, _, hkey⟩ := hkey
  exact h.plain unit p key hkey

theorem plain_of_finds (h : ix.Rooted units) (hkey : ix.Finds units text key) :
    isPlainName (Text.simpleName key) = true := by
  cases hkey with
  | named hnames => exact h.plain_of_names hnames
  | numbered n hkey =>
    rw [hkey]
    exact isPlainName_anonymous n

/-! ## Members -/

section

variable (h : ix.Rooted units)

include h

theorem declares_of_findField? {f : FieldInfo} (hfind : ix.findField? owner name = some (info, f)) :
    f.key.toList.getLast? ≠ some ')' ∧ ix.Declares units f.key := by
  obtain ⟨info', hinfo', hfield⟩ := List.exists_of_findSome?_eq_some hfind
  obtain ⟨f', hf', heq⟩ := Option.map_eq_some_iff.mp hfield
  cases heq
  obtain ⟨key, hkey⟩ := exists_of_mem_hierarchy hinfo'
  obtain ⟨-, unit, u, p, hu, hp, htype, -, hwithin⟩ := h.type key info hkey
  obtain ⟨hkey, hplain, hmem⟩ := hwithin.field name f hf'
  refine ⟨?_, unit, u, p, key, hu, hp, htype, hmem⟩
  rw [hkey]
  exact getLast?_append_ne _ hplain

theorem declares_of_mem_methods {m : MethodInfo} (hinfo : info ∈ ix.hierarchy owner)
    (hm : m ∈ info.methods) (hname : m.name ≠ "<init>") : ix.Declares units m.key := by
  obtain ⟨key, hkey⟩ := exists_of_mem_hierarchy hinfo
  obtain ⟨-, unit, u, p, hu, hp, htype, -, hwithin⟩ := h.type key info hkey
  exact ⟨unit, u, p, key, hu, hp, htype, (hwithin.method m hm).resolve_left hname⟩

/-- A member type that the index holds is declared in the body of its outer type. -/
theorem exists_member_of_memberTypes (hnests : ix.Nests units) (hinfo : ix.type? outer = some info)
    (hkey : info.memberTypes[name]? = some key) :
    ∃ unit u p, units[unit]? = some u
      ∧ p ∈ u.root.places ∧ ∃ q ∈ p.typeMembers, ∃ kind nameNode body,
        Construct.of q = .typeDecl kind nameNode body ∧ ix.typeAt? unit q = some key := by
  obtain ⟨hname, unit, u, p, hu, hp, htype, -, hwithin⟩ := h.type outer info hinfo
  obtain ⟨heq, hmem⟩ := hwithin.memberType name key hkey
  obtain ⟨q, hq, hmem⟩ := List.mem_filterMap.mp hmem
  split at hmem
  · next kind nameNode body hof =>
      cases hmem
      rw [heq, hname]
      exact ⟨unit, u, p, hu, hp, q, hq, kind, nameNode, body, hof,
        hnests unit u hu p hp outer htype q hq kind nameNode body hof⟩
  · cases hmem

theorem names_of_memberTypes (hnests : ix.Nests units) (hinfo : ix.type? outer = some info)
    (hkey : info.memberTypes[name]? = some key) : ix.Names units key := by
  obtain ⟨unit, u, p, hu, hp, q, hq, kind, nameNode, body, hof, htype⟩ :=
    h.exists_member_of_memberTypes hnests hinfo hkey
  exact ⟨unit, u, q, kind, nameNode, body, hu,
    Place.mem_places_of_mem_typeMembers hp hq, hof, htype⟩

theorem names_of_findMemberType? (hnests : ix.Nests units)
    (hfind : ix.findMemberType? owner name = some key) : ix.Names units key := by
  obtain ⟨info, hinfo, hmember⟩ := List.exists_of_findSome?_eq_some hfind
  obtain ⟨outer, houter⟩ := exists_of_mem_hierarchy hinfo
  exact h.names_of_memberTypes hnests houter hmember

end

/-! ## Texts -/

theorem finds_of_contains (h : ix.Rooted units) (hkey : ix.types.contains key = true)
    (htext : Text.simpleName text = Text.simpleName key) : ix.Finds units text key := by
  obtain ⟨info, hinfo⟩ := contains_iff.mp hkey
  obtain ⟨-, unit, u, p, hu, hp, htype, -⟩ := h.type key info hinfo
  rcases h.numbered unit u hu p hp key htype with ⟨kind, name, body, hof, -⟩ | ⟨n, hn⟩
  · exact .named ⟨unit, u, p, kind, name, body, hu, hp, hof, htype⟩
  · exact .numbered n hn (.inr htext)

/-- What a text leads to is bound to it, or found by it. -/
theorem bound_or_finds_of_leads (h : ix.Rooted units) (hnests : ix.Nests units)
    {Bound : String → String → Prop} (hleads : ix.Leads unit Bound text key) :
    Bound text key ∨ ix.Finds units text key := by
  cases hleads with
  | bound hkey => exact .inl hkey
  | @around outer info hinfo =>
    obtain ⟨heq, unit, u, p, hu, hp, htype, hdecl, -⟩ := h.type outer info hinfo
    rw [heq]
    rcases hdecl with ⟨kind, nameNode, body, hof⟩ | hempty
    · exact .inr (.named ⟨unit, u, p, kind, nameNode, body, hu, hp, hof, htype⟩)
    · rcases h.numbered unit u hu p hp outer htype with ⟨kind, nameNode, body, hof, -⟩ | ⟨n, hn⟩
      · exact .inr (.named ⟨unit, u, p, kind, nameNode, body, hu, hp, hof, htype⟩)
      · exact .inr (.numbered n hn (.inl hempty))
  | member hinfo hkey => exact .inr (.named (h.names_of_memberTypes hnests hinfo hkey))
  | @imported imports _ _ himports hkey hcontains =>
    refine .inr (h.finds_of_contains hcontains ?_)
    rw [← h.single unit imports himports text key hkey]
    exact Text.simpleName_of_notMem (Text.exists_simpleName key).1
  | package himports hdot hcontains =>
    exact .inr (h.finds_of_contains hcontains (simpleName_qualify _ _).symm)
  | onDemand himports hp hdot hcontains =>
    exact .inr (h.finds_of_contains hcontains (Text.simpleName_append _ _).symm)
  | only honly => exact .inr (.named (h.bySimple text key (mem_bySimple_of_only honly)))
  | whole hcontains => exact .inr (h.finds_of_contains hcontains rfl)
  | dotted _ hinfo hkey =>
    obtain ⟨owner, hinfo⟩ := exists_of_mem_hierarchy hinfo
    exact .inr (.named (h.names_of_memberTypes hnests hinfo hkey))

/-- A text that means a type of the index finds it. -/
theorem finds_of_resolveType (h : ix.Rooted units) (hnests : ix.Nests units)
    {context : Option String} (hkey : ix.resolveType unit context text = .known key) :
    ix.Finds units (Text.trim text) key := by
  rcases resolveWith_cases (fun _ _ => False) .. with ⟨_, href, hleads⟩ | ⟨_, href, -⟩ | href
  · cases href.symm.trans hkey
    exact (h.bound_or_finds_of_leads hnests hleads).resolve_left id
  · cases href.symm.trans hkey
  · cases href.symm.trans hkey

/-! ## Constants -/

theorem declares_of_enumsWith (h : ix.Rooted units) (howner : owner ∈ ix.enumsWith name) :
    (owner ++ "." ++ name).toList.getLast? ≠ some ')'
      ∧ ix.Declares units (owner ++ "." ++ name) := by
  obtain ⟨info, hinfo, rfl⟩ := List.mem_map.mp howner
  obtain ⟨hvalue, hfield⟩ := List.mem_filter.mp hinfo
  obtain ⟨key, hkey⟩ := mem_values_iff.mp hvalue
  obtain ⟨hname, unit, u, p, hu, hp, htype, -, hwithin⟩ := h.type key info hkey
  rw [Bool.and_eq_true, Std.TreeMap.contains_eq_isSome_getElem?] at hfield
  obtain ⟨f, hf⟩ := Option.isSome_iff_exists.mp hfield.2
  obtain ⟨hf, hplain, hmem⟩ := hwithin.field name f hf
  rw [hf, hname] at hmem
  rw [hname]
  exact ⟨getLast?_append_ne _ hplain, unit, u, p, key, hu, hp, htype, hmem⟩

end Index.Rooted

end Legible
