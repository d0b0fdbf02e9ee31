import Legible.Proofs.Text.Dotted
import Legible.Workspace.FileSystem

/-!
# What actions on files change

A file system is a tree if all that is below a location is below a directory (`IsTree`). In a tree a
path that leads to a file ends in the file's name, and a path that goes on behind that name leads to
another file of the same directory (`locate_append`). An action on files makes no directory and
removes none, so the paths lead where they led (`SameBut.locate`), and nothing but the files it
names are different afterwards.
-/

namespace Legible

/-! ## Pieces of paths -/

namespace Path

variable {path : String}

/-- The last piece of a path is what stands after its last slash, and grows with the path. -/
theorem exists_last_piece (path : String) :
    ∃ init last, pieces path = init ++ [last]
      ∧ (∀ suffix : String, '/' ∉ suffix.toList →
        pieces (path ++ suffix) = init ++ [last ++ suffix])
      ∧ (path.toList.getLast? = some '/' → last = "") := by
  by_cases h : '/' ∈ path.toList
  · obtain ⟨name, left, hback, hname⟩ := List.eq_append_cons_of_mem (List.mem_reverse.mpr h)
    have hpath : path.toList = left.reverse ++ '/' :: name.reverse := by
      have := congrArg List.reverse hback
      simpa using this
    have hslash : '/' ∉ name.reverse := by simpa using hname
    refine ⟨(Text.pieces '/' left.reverse).map String.ofList, String.ofList name.reverse, ?_, ?_, ?_⟩
    · rw [pieces, hpath, Text.pieces_append_last _ hslash, List.map_append]
      rfl
    · intro suffix hsuffix
      have hboth : '/' ∉ name.reverse ++ suffix.toList := by
        simp only [List.mem_append, not_or]
        exact ⟨hslash, hsuffix⟩
      rw [pieces, String.toList_append, hpath, List.append_assoc, List.cons_append,
        Text.pieces_append_last _ hboth, List.map_append, List.map_singleton, String.ofList_append,
        String.ofList_toList]
    · intro hlast
      cases hname' : name.reverse with
      | nil => rfl
      | cons c cs =>
        rw [hpath, hname', List.append_cons, List.getLast?_append_of_ne_nil _ (List.cons_ne_nil _ _)]
          at hlast
        exact absurd (hname' ▸ List.mem_of_getLast? hlast) hslash
  · refine ⟨[], path, ?_, ?_, ?_⟩
    · rw [pieces, Text.pieces_of_notMem h]
      simp
    · intro suffix hsuffix
      have hboth : '/' ∉ (path ++ suffix).toList := by
        rw [String.toList_append, List.mem_append, not_or]
        exact ⟨h, hsuffix⟩
      rw [pieces, Text.pieces_of_notMem hboth]
      simp
    · intro hlast
      exact absurd (List.mem_of_getLast? hlast) h

theorem exists_cons_pieces (hpath : path ≠ "") (hrelative : isAbsolute path = false) :
    ∃ piece rest, pieces path = piece :: rest ∧ piece ≠ "" := by
  have hne : path.toList ≠ [] := by simpa using hpath
  obtain ⟨c, cs, hcs⟩ := List.exists_cons_of_ne_nil hne
  have hc : c ≠ '/' := by
    rintro rfl
    simp [isAbsolute, hcs] at hrelative
  obtain ⟨p, ps, hps⟩ := List.exists_cons_of_ne_nil (Text.pieces_ne_nil '/' cs)
  refine ⟨String.ofList (c :: p), ps.map String.ofList, ?_, ?_⟩
  · rw [pieces, hcs, Text.pieces, if_neg hc, hps, List.map_cons]
  · intro hempty
    have := congrArg String.toList hempty
    simp at this

end Path

namespace FileSystem

variable {fs fs' fs₁ fs₂ : FileSystem} {spot dir target old inner other new : Location}
  {path last piece suffix : String} {bytes : ByteArray} {source : Location}
  {entries : List (Location × Entry)} {rest init : List String}

/-! ## Trees -/

/-- All that is below a location is below a directory. -/
def IsTree (fs : FileSystem) : Prop :=
  ∀ spot dir, (fs.entry? spot).isSome = true → dir <+: spot → dir ≠ spot →
    fs.entry? dir = some .directory

def fileAt? (fs : FileSystem) (spot : Location) : Option ByteArray :=
  match fs.entry? spot with
  | some (.file bytes) => some bytes
  | _ => none

@[simp] theorem entry?_nil (fs : FileSystem) : fs.entry? [] = some .directory := rfl

theorem entry?_of_ne_nil (fs : FileSystem) (h : spot ≠ []) :
    fs.entry? spot = fs.entries.lookup spot := by
  unfold entry?
  rw [if_neg (by simpa using h)]

/-- Files in the root directory alone are a tree. -/
theorem isTree_of_flat (h : ∀ spot ∈ fs.entries.map Prod.fst, spot.length = 1) : fs.IsTree := by
  intro spot dir hsome hdir hne
  have hlength : dir.length < spot.length :=
    Nat.lt_of_le_of_ne hdir.length_le fun heq => hne (hdir.eq_of_length heq)
  have hspot : spot ≠ [] := by
    rintro rfl
    exact absurd hlength (Nat.not_lt_zero _)
  rw [entry?_of_ne_nil _ hspot, Option.isSome_iff_exists] at hsome
  obtain ⟨entry, hentry⟩ := hsome
  have hmem : spot ∈ fs.entries.map Prod.fst := by
    obtain ⟨before, after, heq, -⟩ := List.lookup_eq_some_iff.mp hentry
    simp [heq]
  have hdir : dir = [] := List.length_eq_zero_iff.mp (by have := h spot hmem; omega)
  rw [hdir, entry?_nil]

theorem fileAt?_eq_some : fs.fileAt? spot = some bytes ↔ fs.entry? spot = some (.file bytes) := by
  unfold fileAt?
  split
  · next heq => rw [heq, Option.some.injEq, Option.some.injEq, Entry.file.injEq]
  · next hne =>
      refine iff_of_false (by simp) fun heq => hne _ heq

theorem fileAt?_congr (h : fs'.entry? spot = fs.entry? spot) :
    fs'.fileAt? spot = fs.fileAt? spot := by
  rw [fileAt?, h, fileAt?]

/-! ## Walking a path -/

theorem walk_cons_eq_ok :
    fs.walk dir (piece :: rest) = .ok spot ↔
      fs.entry? dir = some .directory ∧ piece.utf8ByteSize ≤ Path.longestName
        ∧ fs.walk (step dir piece) rest = .ok spot := by
  rw [walk]
  split
  · next h => simp [h]
  · next h => simp [h]
  · next h =>
      split
      · next hlong => simp [h, Nat.not_le_of_lt hlong]
      · next hshort => simp [h, Nat.le_of_not_lt hshort]

theorem walk_append_eq_ok :
    fs.walk dir (init ++ [last]) = .ok spot ↔
      ∃ inner, fs.walk dir init = .ok inner ∧ fs.entry? inner = some .directory
        ∧ last.utf8ByteSize ≤ Path.longestName ∧ step inner last = spot := by
  induction init generalizing dir with
  | nil =>
    rw [List.nil_append, walk_cons_eq_ok]
    simp [walk]
  | cons piece init ih =>
    rw [List.cons_append, walk_cons_eq_ok, ih]
    constructor
    · rintro ⟨hdir, hsize, inner, hwalk, hinner⟩
      exact ⟨inner, walk_cons_eq_ok.mpr ⟨hdir, hsize, hwalk⟩, hinner⟩
    · rintro ⟨inner, hwalk, hinner⟩
      obtain ⟨hdir, hsize, hwalk⟩ := walk_cons_eq_ok.mp hwalk
      exact ⟨hdir, hsize, inner, hwalk, hinner⟩

theorem locate_eq_ok :
    fs.locate path = .ok spot ↔
      refusal? path = none ∧ fs.walk (fs.start path) (Path.pieces path) = .ok spot := by
  rw [locate, locateBy]
  cases refusal? path <;> simp

theorem step_cases (dir : Location) (piece : String) :
    (piece = "" ∨ piece = ".") ∧ step dir piece = dir
      ∨ piece = ".." ∧ step dir piece = dir.dropLast
      ∨ step dir piece = dir ++ [piece] := by
  unfold step
  split
  · exact .inl ⟨.inl rfl, rfl⟩
  · exact .inl ⟨.inr rfl, rfl⟩
  · exact .inr (.inl ⟨rfl, rfl⟩)
  · exact .inr (.inr rfl)

/-- A path leads to a step from a directory, by its last piece. -/
theorem exists_step_of_locate (h : fs.locate path = .ok spot) :
    ∃ init last inner, Path.pieces path = init ++ [last] ∧ fs.walk (fs.start path) init = .ok inner
      ∧ fs.entry? inner = some .directory ∧ spot = step inner last
      ∧ (∀ suffix : String, '/' ∉ suffix.toList →
        Path.pieces (path ++ suffix) = init ++ [last ++ suffix])
      ∧ (path.toList.getLast? = some '/' → last = "") := by
  obtain ⟨init, last, hpieces, happend, hslash⟩ := Path.exists_last_piece path
  obtain ⟨-, hwalk⟩ := locate_eq_ok.mp h
  rw [hpieces] at hwalk
  obtain ⟨inner, hinit, hinner, -, rfl⟩ := walk_append_eq_ok.mp hwalk
  exact ⟨init, last, inner, hpieces, hinit, hinner, rfl, happend, hslash⟩

theorem IsTree.directory (htree : fs.IsTree) (hspot : fs.entry? spot = some .directory)
    (hdir : dir <+: spot) : fs.entry? dir = some .directory := by
  by_cases heq : dir = spot
  · rw [heq, hspot]
  · exact htree spot dir (by rw [hspot]; rfl) hdir heq

theorem IsTree.around_step (htree : fs.IsTree) (hinner : fs.entry? inner = some .directory)
    (hdir : dir <+: step inner last) (hne : dir ≠ step inner last) :
    fs.entry? dir = some .directory := by
  rcases step_cases inner last with ⟨-, heq⟩ | ⟨-, heq⟩ | heq <;> rw [heq] at hdir hne
  · exact htree.directory hinner hdir
  · exact htree.directory hinner (hdir.trans (List.dropLast_prefix inner))
  · rcases List.prefix_concat_iff.mp (by simpa using hdir) with heq | hdir
    · exact absurd (by simpa using heq) hne
    · exact htree.directory hinner hdir

/-- Whatever a path leads to, what is around it is a directory. -/
theorem IsTree.around (htree : fs.IsTree) (h : fs.locate path = .ok spot) (hdir : dir <+: spot)
    (hne : dir ≠ spot) : fs.entry? dir = some .directory := by
  obtain ⟨init, last, inner, -, -, hinner, rfl, -⟩ := exists_step_of_locate h
  exact htree.around_step hinner hdir hne

/-- A path to a file ends in its name. -/
theorem IsTree.exists_name (htree : fs.IsTree) (h : fs.locate path = .ok spot)
    (hfile : fs.entry? spot ≠ some .directory) :
    ∃ inner last, spot = inner ++ [last] ∧ Path.endsInName path = true
      ∧ path.toList.getLast? ≠ some '/' := by
  obtain ⟨init, last, inner, hpieces, -, hinner, rfl, -, hslash⟩ := exists_step_of_locate h
  have hname : last ≠ "" ∧ last ≠ "." ∧ last ≠ ".." := by
    refine ⟨?_, ?_, ?_⟩ <;> rintro rfl
    · exact hfile hinner
    · exact hfile hinner
    · exact hfile (htree.directory hinner (List.dropLast_prefix inner))
  refine ⟨inner, last, ?_, ?_, fun hlast => hname.1 (hslash hlast)⟩
  · rcases step_cases inner last with ⟨hlast, -⟩ | ⟨hlast, -⟩ | heq
    · exact absurd hlast (by simp [hname])
    · exact absurd hlast hname.2.2
    · exact heq
  · have hempty : last.isEmpty = false := by simpa using hname.1
    have hgetLast : ((Path.pieces path).filter (!·.isEmpty)).getLast? = some last := by
      rw [hpieces, List.filter_append]
      simp [hempty]
    unfold Path.endsInName
    rw [hgetLast]
    split
    · next heq => exact absurd (Option.some.inj heq) hname.2.1
    · next heq => exact absurd (Option.some.inj heq) hname.2.2
    · rfl
    · next heq => cases heq

/-! ## Paths that go on -/

/-- An end that makes another name of every last piece: it starts with a dot, and is no step. -/
structure IsSuffix (suffix : String) : Prop where
  slash : '/' ∉ suffix.toList
  long : 2 < suffix.toList.length

theorem ne_empty_of_refusal? (h : refusal? path = none) : path ≠ "" := by
  rintro rfl
  exact absurd h (by decide)

theorem isAbsolute_append (hpath : path ≠ "") (suffix : String) :
    Path.isAbsolute (path ++ suffix) = Path.isAbsolute path := by
  have hne : path.toList ≠ [] := by simpa using hpath
  rw [Path.isAbsolute, Path.isAbsolute, String.toList_append, List.head?_append_of_ne_nil _ hne]

/-- The path that goes on behind the last piece leads to a place in the same directory, which is
another one than the path itself leads to. -/
theorem locate_append (hsuffix : IsSuffix suffix) (h : fs.locate path = .ok spot)
    (hother : fs.locate (path ++ suffix) = .ok other) :
    ∃ inner last, fs.entry? inner = some .directory ∧ spot = step inner last
      ∧ other = inner ++ [last ++ suffix] ∧ other ≠ spot := by
  obtain ⟨init, last, inner, hpieces, hwalk, hinner, rfl, happend, -⟩ := exists_step_of_locate h
  have hpath := ne_empty_of_refusal? (locate_eq_ok.mp h).1
  obtain ⟨-, hother⟩ := locate_eq_ok.mp hother
  have hstart : fs.start (path ++ suffix) = fs.start path := by
    rw [start, start, isAbsolute_append hpath]
  rw [hstart, happend suffix hsuffix.slash] at hother
  obtain ⟨inner', hwalk', -, -, rfl⟩ := walk_append_eq_ok.mp hother
  cases hwalk.symm.trans hwalk'
  have hlength : 2 < (last ++ suffix).toList.length := by
    have := hsuffix.long
    rw [String.toList_append, List.length_append]
    omega
  have hstep : step inner (last ++ suffix) = inner ++ [last ++ suffix] := by
    rcases step_cases inner (last ++ suffix) with ⟨heq | heq, -⟩ | ⟨heq, -⟩ | heq
    case inr.inr => exact heq
    all_goals
      rw [heq] at hlength
      exact absurd hlength (by decide)
  refine ⟨inner, last, hinner, rfl, hstep, ?_⟩
  rw [hstep]
  intro heq
  have hlen := congrArg List.length heq
  rcases step_cases inner last with ⟨-, hspot⟩ | ⟨-, hspot⟩ | hspot <;> rw [hspot] at hlen heq
  · simp at hlen
  · simp at hlen
    omega
  · have hlast := List.cons.inj (List.append_cancel_left heq)
    have hsize := congrArg (fun s : String => s.toList.length) hlast.1
    have := hsuffix.long
    simp at hsize
    simp [hsize] at this

/-! ## Entries after a change -/

theorem lookup_filter_ne (spot s : Location) :
    (entries.filter (·.1 != spot)).lookup s = if s = spot then none else entries.lookup s := by
  induction entries with
  | nil => simp
  | cons e entries ih =>
    obtain ⟨t, e⟩ := e
    by_cases ht : t = spot
    · subst ht
      rw [List.filter_cons_of_neg (by simp), ih, List.lookup_cons]
      by_cases hs : s = t
      · rw [if_pos hs, if_pos hs]
      · rw [if_neg hs, if_neg hs, beq_eq_false_iff_ne.mpr hs]
    · rw [List.filter_cons_of_pos (by simpa using ht), List.lookup_cons, List.lookup_cons, ih]
      by_cases hs : s = t
      · subst hs
        simp [ht]
      · rw [beq_eq_false_iff_ne.mpr hs]

theorem entry?_erase (fs : FileSystem) (hspot : spot ≠ []) (s : Location) :
    entry? (fs.erase spot) s = if s = spot then none else fs.entry? s := by
  by_cases hs : s = []
  · subst hs
    rw [if_neg hspot.symm]
    rfl
  · rw [entry?_of_ne_nil _ hs, entry?_of_ne_nil _ hs]
    exact lookup_filter_ne spot s

theorem entry?_put (fs : FileSystem) (hspot : spot ≠ []) (entry : Entry) (s : Location) :
    entry? (fs.put spot entry) s = if s = spot then some entry else fs.entry? s := by
  by_cases hs : s = []
  · subst hs
    rw [if_neg hspot.symm]
    rfl
  · rw [entry?_of_ne_nil _ hs, entry?_of_ne_nil _ hs, put, List.lookup_append, lookup_filter_ne]
    by_cases heq : s = spot
    · simp [heq]
    · simp [heq, List.lookup_cons, beq_eq_false_iff_ne.mpr heq]

theorem lookup_map_relabel (hne : source ≠ target) (hfree : ∀ e ∈ entries, e.1 ≠ target)
    (s : Location) :
    (entries.map fun e => if e.1 = source then (target, e.2) else e).lookup s
      = if s = target then entries.lookup source
        else if s = source then none else entries.lookup s := by
  induction entries with
  | nil => simp
  | cons e entries ih =>
    have ih := ih fun e he => hfree e (List.mem_cons_of_mem _ he)
    have htarget := hfree e (List.mem_cons_self ..)
    obtain ⟨t, e⟩ := e
    rw [List.map_cons, List.lookup_cons, List.lookup_cons, List.lookup_cons, ih]
    by_cases ht : t = source
    · subst ht
      by_cases hs : s = target
      · simp [hs]
      · have hs' : (s == target) = false := beq_eq_false_iff_ne.mpr hs
        by_cases hst : s = t
        · simp [hst, hne, beq_eq_false_iff_ne.mpr hne]
        · simp [hs, hs', hst, beq_eq_false_iff_ne.mpr hst]
    · have hst : (source == t) = false := beq_eq_false_iff_ne.mpr (Ne.symm ht)
      by_cases hs : s = t
      · subst hs
        simp [ht, htarget]
      · simp [ht, hst, beq_eq_false_iff_ne.mpr hs]

/-- A file is moved, and nothing else. -/
theorem IsTree.entry?_move (htree : fs.IsTree) (hsource : fs.entry? source = some (.file bytes))
    (htarget : target ≠ []) (hne : source ≠ target) (s : Location) :
    entry? (fs.move source target) s
      = if s = target then some (.file bytes) else if s = source then none else fs.entry? s := by
  have hsource' : source ≠ [] := by
    rintro rfl
    cases hsource
  -- nothing is below a file
  have hleaf : ∀ e ∈ fs.entries, source <+: e.1 → e.1 = source := by
    intro e he hprefix
    by_contra hbelow
    have hsome : (fs.entry? e.1).isSome = true := by
      have hne : e.1 ≠ [] := by
        intro hnil
        rw [hnil] at hprefix
        exact hsource' (List.prefix_nil.mp hprefix)
      rw [entry?_of_ne_nil _ hne, List.lookup_isSome_iff]
      exact ⟨e, he, by simp⟩
    have hdir := htree e.1 source hsome hprefix (Ne.symm hbelow)
    rw [hsource] at hdir
    cases hdir
  have hentries : (fs.move source target).entries
      = (fs.erase target).entries.map fun e => if e.1 = source then (target, e.2) else e := by
    refine List.map_congr_left fun e he => ?_
    by_cases heq : e.1 = source
    · simp [heq]
    · have hprefix : source.isPrefixOf e.1 = false := by
        rw [Bool.eq_false_iff, ne_eq, List.isPrefixOf_iff_prefix]
        exact fun hprefix => heq (hleaf e (List.mem_filter.mp he).1 hprefix)
      simp [heq, hprefix]
  have hfree : ∀ e ∈ (fs.erase target).entries, e.1 ≠ target := fun e he => by
    simpa using (List.mem_filter.mp he).2
  have hold : (fs.erase target).entries.lookup source = some (.file bytes) := by
    rw [erase, lookup_filter_ne, if_neg hne, ← entry?_of_ne_nil _ hsource', hsource]
  by_cases hs : s = []
  · subst hs
    rw [if_neg htarget.symm, if_neg hsource'.symm]
    rfl
  · rw [entry?_of_ne_nil _ hs, hentries, lookup_map_relabel hne hfree, hold, erase,
      lookup_filter_ne, entry?_of_ne_nil _ hs]
    by_cases hst : s = target <;> simp [hst]

/-! ## Changes of files -/

structure SameBut (spots : List Location) (fs fs' : FileSystem) : Prop where
  home : fs'.home = fs.home
  directory : ∀ s, fs'.entry? s = some .directory ↔ fs.entry? s = some .directory
  entry : ∀ s, s ∉ spots → fs'.entry? s = fs.entry? s

namespace SameBut

variable {spots spots' : List Location} {pieces : List String} {entry : Option Entry}

theorem refl (fs : FileSystem) : SameBut [] fs fs := ⟨rfl, fun _ => Iff.rfl, fun _ _ => rfl⟩

theorem trans (h : SameBut spots fs fs₁) (h' : SameBut spots' fs₁ fs₂) :
    SameBut (spots ++ spots') fs fs₂ where
  home := h'.home.trans h.home
  directory s := (h'.directory s).trans (h.directory s)
  entry s hs := by
    rw [List.mem_append, not_or] at hs
    rw [h'.entry s hs.2, h.entry s hs.1]

theorem mono (h : SameBut spots fs fs') (hsub : spots ⊆ spots') : SameBut spots' fs fs' :=
  ⟨h.home, h.directory, fun s hs => h.entry s fun hmem => hs (hsub hmem)⟩

theorem walk (h : SameBut spots fs fs') :
    fs'.walk dir pieces = .ok spot ↔ fs.walk dir pieces = .ok spot := by
  induction pieces generalizing dir with
  | nil => rw [FileSystem.walk, FileSystem.walk]
  | cons piece pieces ih => rw [walk_cons_eq_ok, walk_cons_eq_ok, h.directory, ih]

theorem locate (h : SameBut spots fs fs') :
    fs'.locate path = .ok spot ↔ fs.locate path = .ok spot := by
  rw [locate_eq_ok, locate_eq_ok, start, start, h.home, h.walk]

/-- One entry, which is and was no directory, is set. -/
theorem set (hhome : fs'.home = fs.home)
    (hentry : ∀ s, fs'.entry? s = if s = spot then entry else fs.entry? s)
    (hold : fs.entry? spot ≠ some .directory) (hnew : entry ≠ some .directory) :
    SameBut [spot] fs fs' where
  home := hhome
  directory s := by
    rw [hentry]
    split
    · next hs =>
        subst hs
        exact iff_of_false hnew hold
    · exact Iff.rfl
  entry s hs := by rw [hentry, if_neg (fun h => hs (List.mem_singleton.mpr h))]

theorem isTree (h : SameBut spots fs fs') (htree : fs.IsTree)
    (hspots : ∀ s ∈ spots, ∃ path, fs.locate path = .ok s) : fs'.IsTree := by
  intro s dir hsome hdir hne
  rw [h.directory]
  by_cases hs : s ∈ spots
  · obtain ⟨path, hpath⟩ := hspots s hs
    exact htree.around hpath hdir hne
  · rw [h.entry s hs] at hsome
    exact htree s dir hsome hdir hne

end SameBut

/-! ## What each action does -/

section

variable (h : fs.entry? spot ≠ some .directory)

include h

theorem ne_nil_of_entry : spot ≠ [] := by
  rintro rfl
  exact h rfl

theorem sameBut_put (bytes : ByteArray) : SameBut [spot] fs (fs.put spot (.file bytes)) :=
  .set rfl (entry?_put _ (ne_nil_of_entry h) _) h (by simp)

theorem sameBut_erase : SameBut [spot] fs (fs.erase spot) :=
  .set rfl (entry?_erase _ (ne_nil_of_entry h)) h (by simp)

end

/-- A file is moved to where no directory is. -/
theorem IsTree.sameBut_move (htree : fs.IsTree) (hsource : fs.entry? source = some (.file bytes))
    (htarget : fs.entry? target ≠ some .directory) (hne : source ≠ target) :
    SameBut [target, source] fs (fs.move source target) := by
  have hmove := htree.entry?_move hsource (ne_nil_of_entry htarget) hne
  refine ⟨rfl, fun s => ?_, fun s hs => ?_⟩
  · rw [hmove]
    by_cases hst : s = target
    · subst hst
      simp [htarget]
    · by_cases hss : s = source
      · subst hss
        simp [hst, hsource]
      · simp [hst, hss]
  · rw [List.mem_cons, List.mem_singleton, not_or] at hs
    rw [hmove, if_neg hs.1, if_neg hs.2]

theorem create_eq_ok :
    fs.create path = .ok fs' ↔ ∃ spot, fs.locate path = .ok spot
      ∧ fs.entry? spot ≠ some .directory ∧ fs' = fs.put spot (.file ByteArray.empty) := by
  simp only [create, bind, Except.bind]
  split
  · next heq => simp [heq]
  · next spot heq =>
      split
      · next hdir => simp [heq, hdir]
      · next hdir =>
          constructor
          · rintro ⟨⟩
            exact ⟨spot, heq, hdir, rfl⟩
          · rintro ⟨spot', hspot, -, rfl⟩
            cases heq.symm.trans hspot
            rfl

theorem append_eq_ok :
    fs.append path bytes = .ok fs' ↔ ∃ spot old, fs.locate path = .ok spot
      ∧ fs.entry? spot = some (.file old) ∧ fs' = fs.put spot (.file (old ++ bytes)) := by
  simp only [append, bind, Except.bind]
  cases fs.locate path with
  | error fault => simp
  | ok spot => rcases hentry : fs.entry? spot with _ | _ | old <;> simp [hentry, eq_comm]

theorem remove_eq_ok :
    fs.remove path = .ok fs' ↔ ∃ spot old, fs.locate path = .ok spot
      ∧ fs.entry? spot = some (.file old) ∧ fs' = fs.erase spot := by
  simp only [remove, bind, Except.bind]
  cases fs.locate path with
  | error fault => simp
  | ok spot => rcases hentry : fs.entry? spot with _ | _ | old <;> simp [hentry, eq_comm]

theorem renameFile_eq_ok :
    fs.renameFile old new = .ok fs' ↔
      fs.entry? new ≠ some .directory ∧ fs' = if old = new then fs else fs.move old new := by
  unfold renameFile
  split
  · next hdir => simp [hdir]
  · next hdir =>
      rw [and_iff_right (fun h => hdir h)]
      by_cases heq : old = new <;> simp [heq, eq_comm]

/-- A file is renamed: both paths have to end in a name, and no directory gives way. -/
theorem rename_eq_ok {source target : String} (hold : fs.locate source = .ok old)
    (hfile : fs.entry? old = some (.file bytes)) :
    fs.rename source target = .ok fs' ↔ ∃ new, fs.locate target = .ok new
      ∧ Path.endsInName source = true ∧ Path.endsInName target = true
      ∧ target.toList.getLast? ≠ some '/' ∧ fs.entry? new ≠ some .directory
      ∧ fs' = if old = new then fs else fs.move old new := by
  simp only [rename, bind, Except.bind, hold, hfile]
  cases fs.locate target with
  | error fault => simp
  | ok new =>
    cases Path.endsInName source <;> cases Path.endsInName target <;>
      by_cases hslash : target.toList.getLast? = some '/' <;>
      simp [hslash, renameFile_eq_ok]

theorem sync_eq_ok (h : fs.perform (.sync path) = .ok fs') : fs' = fs := by
  simp only [perform, Except.map] at h
  split at h
  · cases h
  · exact (Except.ok.inj h).symm

theorem read_eq_ok :
    fs.read path = .ok bytes ↔ ∃ spot, fs.locate path = .ok spot
      ∧ fs.entry? spot = some (.file bytes) := by
  simp only [read, bind, Except.bind]
  cases fs.locate path with
  | error fault => simp
  | ok spot => rcases hentry : fs.entry? spot with _ | _ | old <;> simp [hentry]

end FileSystem

end Legible
