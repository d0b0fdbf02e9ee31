import Legible.Proofs.Binding.Courses
import Legible.Proofs.Binding.Scoping
import Legible.Proofs.Naming.Hygiene

/-!
# Consistent tables

Names, scopes and the types around a place refer to symbols by number. A table is consistent if
every such number is that of a symbol and no two symbols have one key (`Symbols.Consistent`).
Whatever a tree looks like, each step of its traversal keeps this (`Course.enlarges`): a name is
given only a symbol that the state reaches, a symbol is bound under the number that it was added
under, and the number of the type around a place is looked up when its body is entered, after which
the table only grows.

The number of a key need not be searched for: a map that is kept while symbols are added has it
(`Register.Tracks.add`).
-/

namespace Legible

open Binder

/-- Every number that the table has is that of a symbol, and no two symbols have one key. -/
structure Symbols.Consistent (t : Symbols) : Prop where
  key : ∀ id s, t.symbol? id = some s → t.idOf? s.key = some id
  resolution : ∀ p id, t.resolution? p = some (.symbol id) → id < t.size
  binding : ∀ scope d id, d ∈ t.scopes.definitionsIn scope → d.binding = .symbol id → id < t.size

/-- The table is consistent, and the types around are symbols of it. -/
structure Binder.Consistent (b : Binder) : Prop where
  table : b.table.Consistent
  frame : ∀ frame ∈ b.frames, ∀ id, frame.symbol = some id → id < b.table.size

/-- The state `b'` has the symbols of `b` and maybe more, and is consistent if `b` is. -/
def Binder.Enlarges (b b' : Binder) : Prop :=
  b.Consistent → b'.Consistent ∧ b.table.size ≤ b'.table.size

/-! ## Changes of a table -/

namespace Symbols

variable {t : Symbols} {id : SymbolId}

theorem lt_of_idOf? {key : String} (h : t.idOf? key = some id) : id < t.size := by
  obtain ⟨s, hs, -⟩ := exists_symbol?_of_idOf? h
  exact symbol?_lt hs

theorem size_le_add (t : Symbols) (s : Symbol) : t.size ≤ (t.add s).1.size := by
  rcases t.add_cases s with ⟨_, _, heq⟩ | ⟨_, heq⟩
  · rw [heq]
  · rw [heq, size, size, Array.size_push]
    exact Nat.le_succ _

namespace Consistent

theorem new : Symbols.new.Consistent where
  key id s hs := by simp [symbol?, Symbols.new] at hs
  resolution p id hid := by simp [resolution?, Symbols.new] at hid
  binding scope d id hd := by simp [Symbols.new, Scopes.new, Scopes.definitionsIn] at hd

theorem resolve (h : t.Consistent) (p : Place) {r : Resolution}
    (hr : ∀ id, r = .symbol id → id < t.size) : (t.resolve p r).Consistent where
  __ := h
  resolution := by
    intro q id hid
    rcases resolution?_resolve_cases hid with hid | ⟨-, hid⟩
    · exact h.resolution q id hid
    · exact hr id hid.symm

theorem define (h : t.Consistent) (scope : ScopeId) {d : Definition}
    (hd : ∀ id, d.binding = .symbol id → id < t.size) : (t.define scope d).Consistent where
  __ := h
  binding := by
    intro s d' id hmem hid
    rcases Scopes.mem_define_iff.mp hmem with hmem | ⟨rfl, -⟩
    · exact h.binding s d' id hmem hid
    · exact hd id hid

theorem add (h : t.Consistent) (s : Symbol) : (t.add s).1.Consistent where
  key := by
    intro id s' hs'
    rcases symbol?_add hs' with hold | ⟨rfl, rfl⟩
    · exact idOf?_mono (fun _ _ => symbol?_add_of_symbol? s) (h.key id s' hold)
    · exact t.idOf?_add s'
  resolution := by
    intro p id hid
    rw [t.resolution?_add] at hid
    exact Nat.lt_of_lt_of_le (h.resolution p id hid) (t.size_le_add s)
  binding := by
    intro scope d id hd hid
    rw [t.scopes_add] at hd
    exact Nat.lt_of_lt_of_le (h.binding scope d id hd hid) (t.size_le_add s)

theorem declared {b : Binder} (h : b.table.Consistent) (space : Namespace) (s : Symbol) :
    (b.declared space s).Consistent := by
  refine (h.add s).define b.scope fun id hid => ?_
  cases hid
  exact lt_of_idOf? (b.table.idOf?_add s)

end Consistent

end Symbols

/-! ## The numbers of the keys -/

/-- Symbols together with the numbers of their keys. -/
structure Register where
  symbols : Array Symbol := #[]
  byKey : Std.TreeMap String SymbolId := ∅

namespace Register

def add (r : Register) (s : Symbol) : Register × SymbolId :=
  match r.byKey[s.key]? with
  | some id => (r, id)
  | none => (⟨r.symbols.push s, r.byKey.insert s.key r.symbols.size⟩, r.symbols.size)

/-- The symbols entered one after the other. -/
def ofList (symbols : List Symbol) : Register := symbols.foldl (fun r s => (r.add s).1) {}

/-- The register has the symbols of the table, and finds the keys that a search in the table finds.
-/
structure Tracks (r : Register) (t : Symbols) : Prop where
  symbols : r.symbols = t.symbols
  byKey : ∀ key, r.byKey[key]? = t.idOf? key

variable {r : Register} {t : Symbols}

/-- A symbol gets the same number in both, and the register goes on to track the table. -/
theorem Tracks.add (h : r.Tracks t) (s : Symbol) :
    (r.add s).2 = (t.add s).2 ∧ (r.add s).1.Tracks (t.add s).1 := by
  have hkey := h.byKey s.key
  rcases t.add_cases s with ⟨id, hid, heq⟩ | ⟨hid, heq⟩
  · rw [hid] at hkey
    rw [heq, Register.add, hkey]
    exact ⟨rfl, h⟩
  · rw [hid] at hkey
    rw [heq, Register.add, hkey, h.symbols]
    refine ⟨rfl, rfl, fun key => ?_⟩
    have hpush : Symbols.idOf? { t with symbols := t.symbols.push s } key
        = (t.idOf? key).or (if s.key = key then some t.symbols.size else none) := by
      simp [Symbols.idOf?, Array.findIdx?_push]
    rw [hpush, Std.TreeMap.getElem?_insert, h.byKey]
    by_cases hsame : s.key = key
    · subst hsame
      simp [hid]
    · simp [hsame]

theorem Tracks.foldl (h : r.Tracks t) (symbols : List Symbol) :
    (symbols.foldl (fun r s => (r.add s).1) r).Tracks
      (symbols.foldl (fun t s => (t.add s).1) t) := by
  induction symbols generalizing r t with
  | nil => exact h
  | cons s symbols ih => exact ih (h.add s).2

/-- Symbols with different keys are all added, in their order. -/
theorem symbols_foldl_add {symbols : List Symbol}
    (h : ((t.symbols.toList ++ symbols).map (·.key)).Nodup) :
    (symbols.foldl (fun t s => (t.add s).1) t).symbols.toList = t.symbols.toList ++ symbols := by
  induction symbols generalizing t with
  | nil => exact (List.append_nil _).symm
  | cons s symbols ih =>
    rcases t.add_cases s with ⟨id, hid, -⟩ | ⟨-, heq⟩
    · -- the key of the symbol would be there twice
      obtain ⟨s', hs', hkey⟩ := Symbols.exists_symbol?_of_idOf? hid
      have hmem : s' ∈ t.symbols.toList := (Array.mem_of_getElem? hs').val
      rw [List.map_append, List.map_cons] at h
      exact absurd hkey ((List.nodup_append.mp h).2.2 _ (List.mem_map_of_mem hmem) _
        List.mem_cons_self)
    · have hpush : (t.add s).1.symbols.toList = t.symbols.toList ++ [s] := by
        rw [heq, Array.toList_push]
      rw [List.foldl_cons, ih (by rwa [hpush, ← List.append_cons]), hpush, ← List.append_cons]

/-- The register of the symbols of a table tracks it, if no two of them have one key. -/
theorem tracks_ofList (h : (t.symbols.toList.map (·.key)).Nodup) :
    (ofList t.symbols.toList).Tracks t := by
  have hnew : ({} : Register).Tracks {} := ⟨rfl, fun key => by simp [Symbols.idOf?]⟩
  have hsymbols := @symbols_foldl_add {} t.symbols.toList h
  obtain ⟨hsame, hkeys⟩ := hnew.foldl t.symbols.toList
  rw [List.nil_append, Array.toList_inj] at hsymbols
  refine ⟨hsame.trans hsymbols, fun key => (hkeys key).trans ?_⟩
  rw [Symbols.idOf?, hsymbols, Symbols.idOf?]

end Register

/-! ## Steps -/

section Steps

variable {c : BindingInput} {b b₁ b₂ : Binder}

theorem Binder.Enlarges.trans (h : b.Enlarges b₁) (h' : b₁.Enlarges b₂) : b.Enlarges b₂ := by
  intro hb
  obtain ⟨hb₁, hsize⟩ := h hb
  obtain ⟨hb₂, hsize'⟩ := h' hb₁
  exact ⟨hb₂, Nat.le_trans hsize hsize'⟩

/-- The types around stay symbols of a table that grows. -/
theorem Binder.Enlarges.of_table (hframes : b₁.frames = b.frames)
    (hsize : b.table.size ≤ b₁.table.size)
    (htable : b.Consistent → b₁.table.Consistent) : b.Enlarges b₁ := by
  refine fun hb => ⟨⟨htable hb, ?_⟩, hsize⟩
  rw [hframes]
  exact fun frame hframe id hid => Nat.lt_of_lt_of_le (hb.frame frame hframe id hid) hsize

theorem Binder.Consistent.lt_of_reaches (hb : b.Consistent) {id : SymbolId} (h : b.Reaches id) :
    id < b.table.size := by
  cases h with
  | listed hs => exact Symbols.symbol?_lt hs
  | bound h => exact hb.table.binding _ _ id (Scopes.mem_of_lookup? h) rfl
  | innermost h =>
    obtain ⟨frame, hframe, hid⟩ := Option.bind_eq_some_iff.mp h
    exact hb.frame frame (List.mem_of_mem_head? hframe) id hid

theorem enlarges_setType (p : Place) (type : Option StaticType) (b : Binder) :
    b.Enlarges (b.setType p type) := by
  cases type <;> exact .of_table rfl (Nat.le_refl _) (·.table)

theorem enlarges_give {meaning : Binder → Option Resolution × Option StaticType}
    (h : Grounded meaning) (q access : Place) (b : Binder) :
    b.Enlarges (b.give q access (meaning b)) := by
  have hresolved : b.Enlarges ((meaning b).1.elim b (b.resolve q)) := by
    cases hr : (meaning b).1 with
    | none => exact fun hb => ⟨hb, Nat.le_refl _⟩
    | some r =>
      refine .of_table rfl (Nat.le_refl _) fun hb => hb.table.resolve q fun id hid => ?_
      exact hb.lt_of_reaches (h b id (hid ▸ hr))
  exact hresolved.trans (enlarges_setType access _ _)

theorem enlarges_declared (space : Namespace) (s : Symbol) (b : Binder) :
    b.Enlarges { b with table := b.declared space s } :=
  .of_table rfl (b.table.size_le_add s) fun hb => hb.table.declared space s

theorem Ahead.enlarges {owner : String} {s : Step} (h : Ahead c owner s) (visit : Visit)
    (b : Binder) : b.Enlarges (s.run c visit b) := by
  cases h with
  | typeVariable =>
    rw [Step.run]
    exact .of_table rfl (Nat.le_refl _) fun hb => hb.table.define b.scope nofun
  | @type _ name _ _ key =>
    rw [Step.run]
    rcases b.declareType_cases key (c.unit.text name) with ⟨_, _, heq⟩ | heq
    · rw [heq]
      exact fun hb => ⟨hb, Nat.le_refl _⟩
    · rw [heq]
      exact enlarges_declared _ _ b
  | @member m =>
    rw [Step.run]
    obtain ⟨htable, -, hframes⟩ := Trace.declare_eq m b
    have hdeclared := enlarges_declared m.space (Trace.memberSymbol m) b
    rcases htable with htable | htable
    · refine .of_table hframes (htable ▸ ?_) fun hb => htable ▸ (hdeclared hb).1.table
      exact b.table.size_le_add _
    · refine .of_table hframes (htable ▸ b.table.size_le_add _) fun hb => ?_
      rw [htable]
      refine (hdeclared hb).1.table.define b.scope fun id hid => ?_
      cases hid
      exact Symbols.lt_of_idOf? (b.table.idOf?_add _)

theorem enlarges_declareVariable (p : Place) (kind : SymbolKind) (declaredType : Option String)
    (type : Option StaticType) (b : Binder) :
    b.Enlarges (b.declareVariable c p kind declaredType type) := by
  rcases b.declareVariable_cases c p kind declaredType type with
    ⟨_, heq⟩ | ⟨_, s, _, _, _, _, htable, hframes, _⟩
  · rw [heq]
    exact .of_table rfl (Nat.le_refl _) fun hb => hb.table.resolve p nofun
  · refine .of_table hframes (htable ▸ b.table.size_le_add s) fun hb => ?_
    rw [htable]
    refine (hb.table.declared .value s).resolve p fun id hid => ?_
    cases hid
    exact Symbols.lt_of_idOf? (b.table.idOf?_add s)

/-- Every course keeps a state consistent. -/
theorem Course.enlarges {owner : Option String} {locals : List Place} {b' : Binder}
    {ms : List Moment} (h : Course c owner locals b b' ms) : b.Enlarges b' := by
  induction h with
  | idle => exact fun hb => ⟨hb, Nat.le_refl _⟩
  | trans _ _ _ ih ih' => exact ih.trans ih'
  | visit _ _ _ ih => exact ih
  | name _ hgrounded b => exact enlarges_give hgrounded _ _ b
  | note _ _ _ b => exact enlarges_setType _ _ b
  | declare h _ visit _ b => exact h.enlarges visit b
  | parameter _ _ b => exact enlarges_declareVariable _ _ _ _ b
  | localVariable _ _ _ _ _ ih => exact ih.trans (enlarges_declareVariable _ _ _ _ _)
  | inScope _ _ _ ih =>
    intro hb
    obtain ⟨hinside, hsize⟩ :=
      ih ⟨⟨hb.table.key, hb.table.resolution, hb.table.binding⟩, hb.frame⟩
    exact ⟨⟨⟨hinside.table.key, hinside.table.resolution, hinside.table.binding⟩,
      hinside.frame⟩, hsize⟩
  | inMember _ _ ih | inSwitch _ ih =>
    intro hb
    obtain ⟨hinside, hsize⟩ := ih ⟨hb.table, hb.frame⟩
    exact ⟨⟨hinside.table, hinside.frame⟩, hsize⟩
  | @inType _ _ b inside b' _ p key hp _ frame _ hsymbol hinside visit _ _ _ ih =>
    intro hb
    have hopened : inside.Consistent := by
      rw [hinside]
      refine ⟨⟨hb.table.key, hb.table.resolution, hb.table.binding⟩, ?_⟩
      exact List.forall_mem_cons.mpr ⟨fun id hid => Symbols.lt_of_idOf? (hsymbol id hid), hb.frame⟩
    have hahead : inside.Enlarges (Step.runAll c visit (aheadSteps c key p) inside) :=
      @momentsAll_induction c visit (fun _ _ => []) (fun b b' _ => b.Enlarges b')
        (fun _ hb => ⟨hb, Nat.le_refl _⟩) (fun h h' => h.trans h') _
        (fun s hs b => (ahead_aheadSteps hp key s hs).enlarges visit b) inside
    obtain ⟨hb', hsize⟩ := hahead.trans ih hopened
    rw [hinside] at hsize
    exact ⟨⟨⟨hb'.table.key, hb'.table.resolution, hb'.table.binding⟩, fun frame hframe =>
      hb'.frame frame (List.mem_of_mem_tail hframe)⟩, hsize⟩

end Steps

/-! ## The symbols of a unit -/

namespace Symbols

variable {t : Symbols} (d : Dictionary) (policy : NamingPolicy) (c : BindingInput)

theorem consistent_found : (found c).Consistent := by
  have hwalked := ((course_moments c).enlarges ⟨.new, nofun⟩).1.table
  have hsymbols : (found c).symbols = (walked c).table.symbols :=
    (traverse c).table.symbols_keepUnresolved (namePlaces c.unit)
  refine ⟨fun id s hs => ?_, fun p id hid => ?_, fun scope def' id hdef hid => ?_⟩
  · rw [symbol?, hsymbols] at hs
    rw [idOf?, hsymbols]
    exact hwalked.key id s hs
  · rw [size, hsymbols]
    rcases resolution?_of_keepUnresolved _ hid with hid | hid
    · exact hwalked.resolution p id hid
    · cases hid
  · rw [size, hsymbols]
    rw [found, scopes_keepUnresolved] at hdef
    exact hwalked.binding scope def' id hdef hid

theorem keys_ofUnit : (ofUnit d policy c).symbols.map (·.key) = (found c).symbols.map (·.key) := by
  refine Array.toList_inj.mp ?_
  rw [Array.toList_map, Array.toList_map, symbols_ofUnit]
  exact map_chooseNames (fun _ _ => rfl) d policy _ _

theorem size_ofUnit : (ofUnit d policy c).size = (found c).size := by
  simpa [size] using congrArg Array.size (keys_ofUnit d policy c)

theorem idOf?_ofUnit (key : String) : (ofUnit d policy c).idOf? key = (found c).idOf? key := by
  have hkeys : ∀ t : Symbols, t.idOf? key = (t.symbols.map (·.key)).findIdx? (· == key) := by
    intro t
    rw [Array.findIdx?_map]
    rfl
  rw [hkeys, hkeys, keys_ofUnit]

theorem consistent_ofUnit : (ofUnit d policy c).Consistent where
  key := by
    intro id s hs
    have hkey := map_symbol?_ofUnit d policy c (f := (·.key)) (fun _ _ => rfl) id
    rw [hs, Option.map_some] at hkey
    obtain ⟨s₀, hs₀, hsame⟩ := Option.map_eq_some_iff.mp hkey.symm
    rw [idOf?_ofUnit, ← hsame]
    exact (consistent_found c).key id s₀ hs₀
  resolution := by
    rw [size_ofUnit]
    exact (consistent_found c).resolution
  binding := by
    rw [size_ofUnit]
    exact (consistent_found c).binding

theorem Consistent.keys_nodup (h : t.Consistent) : (t.symbols.toList.map (·.key)).Nodup := by
  refine List.nodup_iff_getElem?_ne_getElem?.mpr fun i j hij hj heq => ?_
  obtain ⟨key, hkey⟩ : ∃ key, (t.symbols.toList.map (·.key))[j]? = some key :=
    ⟨_, List.getElem?_eq_getElem hj⟩
  have hid : ∀ id, (t.symbols.toList.map (·.key))[id]? = some key → t.idOf? key = some id := by
    intro id hid
    rw [List.getElem?_map, Array.getElem?_toList] at hid
    obtain ⟨s, hs, rfl⟩ := Option.map_eq_some_iff.mp hid
    exact h.key id s hs
  have hsame := (hid i (heq.trans hkey)).symm.trans (hid j hkey)
  exact Nat.ne_of_lt hij (Option.some.inj hsame)

theorem resolution?_keepUnresolved_ne_none {names : List Place} {p : Place} (hp : p ∈ names) :
    (t.keepUnresolved names).resolution? p ≠ none := by
  unfold keepUnresolved
  induction names generalizing t with
  | nil => cases hp
  | cons q names ih =>
    rcases List.mem_cons.mp hp with rfl | hp
    · have hfirst : (t.resolve p .keep).resolution? p ≠ none := by
        rw [resolution?_resolve]
        split
        · exact Option.some_ne_none _
        · next h => exact fun hnone => h ⟨rfl, hnone⟩
      obtain ⟨r, hr⟩ := Option.ne_none_iff_exists'.mp hfirst
      exact Option.ne_none_iff_exists'.mpr ⟨r, resolution?_keepUnresolved_of_eq_some names hr⟩
    · exact ih hp

/-- The symbol of a key is the one that has it, and a register of the symbols has its number. What
names and scopes refer to are symbols of the table. Every name refers to something, and only
variables are named by anything but the dictionary. -/
theorem ofUnit_wellFormed (d : Dictionary) (policy : NamingPolicy) (c : BindingInput) :
    let t := ofUnit d policy c
    (∀ key id, t.idOf? key = some id ↔ ∃ s, t.symbol? id = some s ∧ s.key = key)
      ∧ (t.symbols.toList.map (·.key)).Nodup
      ∧ (Register.ofList t.symbols.toList).Tracks t
      ∧ (∀ p id, t.resolution? p = some (.symbol id) → id < t.size ∧ ∃ s, t.symbol? id = some s
          ∧ t.keyOf? p = some (s.key, .valid)
          ∧ t.replacement? d p = if s.isRenamed then some s.displayName else none)
      ∧ (∀ scope, ∀ bound ∈ t.scopes.definitionsIn scope, ∀ id, bound.binding = .symbol id →
          id < t.size)
      ∧ (∀ p ∈ c.unit.root.places, p.node.isName = true → t.resolution? p ≠ none)
      ∧ ∀ id s, t.symbol? id = some s → s.kind.isVariable = false →
          s.chosenName = d.lookup? s.key := by
  intro t
  have ht : t.Consistent := consistent_ofUnit d policy c
  refine ⟨fun key id => ⟨exists_symbol?_of_idOf?, ?_⟩, ht.keys_nodup,
    Register.tracks_ofList ht.keys_nodup, fun p id hid => ?_,
    fun scope bound hbound id hid => ht.binding scope bound id hbound hid, fun p hp hname => ?_,
    fun id s hs hkind => ?_⟩
  · rintro ⟨s, hs, rfl⟩
    exact ht.key id s hs
  · have hlt := ht.resolution p id hid
    obtain ⟨s, hs⟩ : ∃ s, t.symbol? id = some s := ⟨_, Array.getElem?_eq_getElem hlt⟩
    exact ⟨hlt, s, hs, by simp [keyOf?, hid, hs], by simp [replacement?, hid, hs]⟩
  · exact resolution?_keepUnresolved_ne_none (List.mem_filter.mpr ⟨hp, hname⟩)
  · obtain ⟨taken, hchosen⟩ := chosenName_ofUnit hs
    rw [hchosen, suggest_eq_none policy taken (by simp [hkind]), Option.or_none]

end Symbols

end Legible
