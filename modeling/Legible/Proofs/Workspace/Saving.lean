import Mathlib.Order.Defs.Unbundled
import Legible.Proofs.Workspace.Interruption

/-!
# Saving the dictionary

Before the dictionary is saved the directories around it are made, as far as they are missing
(`Room`). Then the steps of saving are begun, and what is on the disk in the end is what a beginning
of them leaves (`exists_room_save`). The file in the dictionary's place is therefore the old one or
the new one, whole (`interruption_safe`).
-/

namespace Legible

open FileSystem

variable {fs fs' fs₁ fs₂ : FileSystem} {path : String} {paths paths' pieces : List String}
  {dir spot : Location}

/-! ## Making directories -/

/-- A walk stays possible where directories stay. -/
theorem walk_of_kept (hkept : ∀ s, fs.entry? s = some .directory → fs'.entry? s = some .directory)
    (hwalk : fs.walk dir pieces = .ok spot) : fs'.walk dir pieces = .ok spot := by
  induction pieces generalizing dir with
  | nil => exact hwalk
  | cons piece pieces ih =>
    obtain ⟨hdir, hsize, hwalk⟩ := walk_cons_eq_ok.mp hwalk
    exact walk_cons_eq_ok.mpr ⟨hkept _ hdir, hsize, ih hwalk⟩

/-- Directories were made where the paths lead and nothing was; all else is as it was. -/
structure Room (paths : List String) (fs fs' : FileSystem) : Prop where
  home : fs'.home = fs.home
  kept : ∀ s entry, fs.entry? s = some entry → fs'.entry? s = some entry
  made : ∀ s, fs.entry? s = none → fs'.entry? s = none
    ∨ fs'.entry? s = some .directory ∧ ∃ p ∈ paths, fs'.locate p = .ok s
  isTree : fs.IsTree → fs'.IsTree

namespace Room

theorem refl (fs : FileSystem) : Room [] fs fs := ⟨rfl, fun _ _ h => h, fun _ h => .inl h, id⟩

theorem mono (h : Room paths fs fs') (hsub : paths ⊆ paths') : Room paths' fs fs' where
  __ := h
  made s hs := (h.made s hs).imp_right fun ⟨hdir, p, hp, hlocate⟩ => ⟨hdir, p, hsub hp, hlocate⟩

theorem locate (h : Room paths fs fs') (hlocate : fs.locate path = .ok spot) :
    fs'.locate path = .ok spot := by
  rw [locate_eq_ok] at hlocate ⊢
  rw [start, h.home]
  exact ⟨hlocate.1, walk_of_kept (fun s => h.kept s _) hlocate.2⟩

theorem trans (h : Room paths fs fs₁) (h' : Room paths' fs₁ fs₂) :
    Room (paths ++ paths') fs fs₂ where
  home := h'.home.trans h.home
  kept s entry hs := h'.kept s entry (h.kept s entry hs)
  made s hs := by
    rcases h.made s hs with hnone | ⟨hdir, p, hp, hlocate⟩
    · refine (h'.made s hnone).imp_right fun ⟨hdir, p, hp, hlocate⟩ => ?_
      exact ⟨hdir, p, List.mem_append_right _ hp, hlocate⟩
    · exact .inr ⟨h'.kept s _ hdir, p, List.mem_append_left _ hp, h'.locate hlocate⟩
  isTree htree := h'.isTree (h.isTree htree)

theorem fileAt? (h : Room paths fs fs') (s : Location) : fs'.fileAt? s = fs.fileAt? s := by
  cases hs : fs.entry? s with
  | some entry => exact fileAt?_congr ((h.kept s entry hs).trans hs.symm)
  | none =>
    rcases h.made s hs with hnone | ⟨hdir, -⟩
    · exact fileAt?_congr (hnone.trans hs.symm)
    · simp only [FileSystem.fileAt?, hs, hdir]

end Room

/-- Slashes at the end of a path to a directory change nothing. -/
theorem walk_append_empty {blanks : List String} (hblanks : ∀ piece ∈ blanks, piece = "")
    (hspot : fs.entry? spot = some .directory) (hwalk : fs.walk dir pieces = .ok spot) :
    fs.walk dir (pieces ++ blanks) = .ok spot := by
  induction blanks generalizing pieces with
  | nil => rwa [List.append_nil]
  | cons piece blanks ih =>
    rw [List.append_cons]
    refine ih (fun p hp => hblanks p (List.mem_cons_of_mem _ hp)) ?_
    obtain rfl := hblanks piece (List.mem_cons_self ..)
    exact walk_append_eq_ok.mpr ⟨spot, hwalk, hspot, Nat.zero_le _, rfl⟩

/-- Slashes at the end of a path do not count when a directory is made. -/
theorem room_put (hrefusal : refusal? path = none)
    (hwalk : fs.walk (fs.start path) ((Path.pieces path).reverse.dropWhile (·.isEmpty)).reverse
      = .ok spot) (hnone : fs.entry? spot = none) : Room [path] fs (fs.put spot .directory) := by
  have hspot : spot ≠ [] := by
    rintro rfl
    cases hnone
  have hentry := entry?_put fs hspot .directory
  have hkept : ∀ s entry, fs.entry? s = some entry →
      entry? (fs.put spot .directory) s = some entry := by
    intro s entry hs
    rw [hentry, if_neg, hs]
    rintro rfl
    rw [hnone] at hs
    cases hs
  generalize hstripped : ((Path.pieces path).reverse.dropWhile (·.isEmpty)).reverse = stripped
    at hwalk
  obtain ⟨blanks, hblanks, hpieces⟩ : ∃ blanks : List String, (∀ piece ∈ blanks, piece = "")
      ∧ Path.pieces path = stripped ++ blanks := by
    refine ⟨((Path.pieces path).reverse.takeWhile (·.isEmpty)).reverse, fun piece hpiece => ?_, ?_⟩
    · have := List.mem_takeWhile_imp (List.mem_reverse.mp hpiece)
      simpa using this
    · rw [← hstripped, ← List.reverse_append, List.takeWhile_append_dropWhile, List.reverse_reverse]
  have hlocate : (fs.put spot .directory).locate path = .ok spot := by
    refine locate_eq_ok.mpr ⟨hrefusal, ?_⟩
    rw [hpieces]
    exact walk_append_empty hblanks (by rw [hentry, if_pos rfl])
      (walk_of_kept (fun s => hkept s _) hwalk)
  refine ⟨rfl, hkept, fun s hs => ?_, fun htree s dir hsome hdir hne => ?_⟩
  · by_cases heq : s = spot
    · subst heq
      exact .inr ⟨by rw [hentry, if_pos rfl], path, List.mem_singleton_self _, hlocate⟩
    · exact .inl (by rw [hentry, if_neg heq, hs])
  · by_cases heq : s = spot
    · subst heq
      rcases List.eq_nil_or_concat' stripped with rfl | ⟨init, last, rfl⟩
      · -- a path of slashes alone leads to the root, and there is something
        cases hwalk
        cases habsolute : Path.isAbsolute path with
        | true => simp [start, habsolute] at hspot
        | false =>
          obtain ⟨piece, rest, hcons, hpiece⟩ :=
            Path.exists_cons_pieces (ne_empty_of_refusal? hrefusal) habsolute
          rw [hcons, List.nil_append] at hpieces
          exact absurd (hblanks piece (hpieces ▸ List.mem_cons_self ..)) hpiece
      · obtain ⟨inner, -, hinner, -, rfl⟩ := walk_append_eq_ok.mp hwalk
        exact hkept _ _ (htree.around_step hinner hdir hne)
    · rw [hentry, if_neg heq] at hsome
      exact hkept _ _ (htree s dir hsome hdir hne)

theorem room_makeDirectory (h : fs.makeDirectory path = .ok fs') : Room [path] fs fs' := by
  simp only [makeDirectory, locateBy, bind, Except.bind] at h
  split at h
  · cases h
  · next spot hspot =>
      split at h
      · cases h
      · next hnone =>
          cases h
          cases hrefusal : refusal? path with
          | some fault =>
            rw [hrefusal] at hspot
            cases hspot
          | none =>
            rw [hrefusal] at hspot
            exact room_put hrefusal hspot hnone

/-! ## Making room -/

section Programs

variable {σ : Type} [Disk (StateM σ)] [HoldsFiles σ] {α β : Type}

/-- Whatever is on the disk before an operation and after it is related. -/
def Leads (R : FileSystem → FileSystem → Prop) (operation : StateM σ α) : Prop :=
  ∀ st, R (HoldsFiles.files st) (HoldsFiles.files (operation st).2)

namespace Leads

variable {R : FileSystem → FileSystem → Prop} [IsPreorder FileSystem R]

theorem pure (a : α) : Leads R (Pure.pure a : StateM σ α) := fun _ => refl_of R _

theorem bind {x : StateM σ α} {f : α → StateM σ β} (hx : Leads R x) (hf : ∀ a, Leads R (f a)) :
    Leads R (x >>= f) :=
  fun st => trans_of R (hx st) (hf _ _)

theorem tryBind {x : ExceptT Error (StateM σ) α} {f : α → ExceptT Error (StateM σ) β}
    (hx : Leads R x.run) (hf : ∀ a, Leads R (f a).run) : Leads R (x >>= f).run := by
  rw [ExceptT.run_bind]
  refine bind hx fun answer => ?_
  cases answer with
  | ok a => exact hf a
  | error e => exact pure _

omit [IsPreorder FileSystem R] in
theorem lift {x : StateM σ α} (hx : Leads R x) :
    Leads R (liftM x : ExceptT Error (StateM σ) α).run :=
  fun st => hx st

theorem kind? (path : String) : Leads R (Disk.kind? path : StateM σ (Option FileKind)) := by
  intro st
  rw [HoldsFiles.kind?_eq]
  exact refl_of R _

theorem isDirectory (path : String) : Leads R (Disk.isDirectory path : StateM σ Bool) :=
  bind (kind? path) fun _ => pure _

theorem exists? (path : String) : Leads R (Disk.exists? path : StateM σ Bool) :=
  bind (kind? path) fun _ => pure _

end Leads

instance (paths : List String) : IsPreorder FileSystem (Room paths) where
  refl fs := (Room.refl fs).mono (List.nil_subset _)
  trans _ _ _ h h' := (h.trans h').mono (by simp)

abbrev MakesRoom (paths : List String) (operation : StateM σ α) : Prop :=
  Leads (Room paths) operation

namespace MakesRoom

variable {paths paths' : List String}

theorem mono {x : StateM σ α} (hx : MakesRoom paths x) (hsub : paths ⊆ paths') :
    MakesRoom paths' x :=
  fun st => (hx st).mono hsub

theorem act (path : String) :
    MakesRoom [path] (Disk.act (.makeDirectory path) : StateM σ (Except FileFault Unit)) := by
  intro st
  rcases HoldsFiles.act_cases (.makeDirectory path) st with
    ⟨fault, st', hact, hfiles⟩ | ⟨st', hact, hperform⟩ <;> rw [hact]
  · have hsame : HoldsFiles.files st' = HoldsFiles.files st := by
      rcases hfiles with hfiles | ⟨written, hfiles⟩ <;> exact hfiles
    rw [hsame]
    exact (Room.refl _).mono (List.nil_subset _)
  · exact room_makeDirectory hperform

theorem ensureDirectory (path : String) :
    MakesRoom [path] (Disk.ensureDirectory path : StateM σ (Except FileFault Unit)) := by
  refine .bind (act path) fun answer => ?_
  split
  · exact .pure _
  · exact .bind (.isDirectory path) fun isDir => by cases isDir <;> exact .pure _

theorem ensureNested (paths : List String) :
    MakesRoom paths (Disk.ensureNested paths : StateM σ (Except FileFault Unit)) := by
  induction paths with
  | nil => exact .pure _
  | cons path around ih =>
    have hpath : MakesRoom (path :: around)
        (Disk.ensureDirectory path : StateM σ (Except FileFault Unit)) :=
      (ensureDirectory path).mono (by simp)
    refine .bind hpath fun answer => ?_
    split
    · refine .bind (ih.mono (List.subset_cons_self _ _)) fun answer => ?_
      split
      · exact hpath
      · exact .pure _
    · exact .pure _

theorem makeDirectories (path : String) :
    MakesRoom (Path.ancestors path)
      (Disk.makeDirectories path : ExceptT Error (StateM σ) Unit).run := by
  refine .tryBind (.lift (ensureNested _)) fun answer => ?_
  cases answer <;> exact .pure _

end MakesRoom

/-- The directories around the dictionary, the innermost first. -/
def roomPaths (path : String) : List String :=
  (Path.parent? path).toList.flatMap Path.ancestors

theorem makesRoom_makeRoom (path : String) :
    MakesRoom (roomPaths path) (Dictionary.makeRoom path : ExceptT Error (StateM σ) Unit).run := by
  unfold Dictionary.makeRoom roomPaths
  split
  · exact .pure _
  · next dir hparent =>
      refine .tryBind (.lift (.exists? dir)) fun found => ?_
      split
      · exact .pure _
      · have hmade : MakesRoom (Path.ancestors dir)
            (Disk.makeDirectories dir : ExceptT Error (StateM σ) Unit).run := .makeDirectories dir
        simpa [hparent] using hmade

/-- What saving leaves is what a beginning of its steps leaves, once there is room. -/
theorem exists_room_save (d : Dictionary) (path : String) (st : σ) :
    ∃ fs, Room (roomPaths path) (HoldsFiles.files st) fs
      ∧ Interrupted fs (Replace.saveSteps path d.toJson.toUTF8) (filesAfter (d.save path) st) := by
  refine ⟨_, makesRoom_makeRoom path st, ?_⟩
  rw [filesAfter, Dictionary.save, run_bind]
  rcases (Dictionary.makeRoom path : ExceptT Error (StateM σ) Unit).run st with ⟨_ | ⟨⟨⟩⟩, st'⟩
  · exact .here _ _
  · exact interrupted_carryOut _ _

end Programs

/-- While the dictionary is saved nothing changes but its file and the temporary one, and its file
is the old one or the new one. -/
theorem Interrupted.save {bytes : ByteArray} (htree : fs.IsTree)
    (h : Interrupted fs (Replace.saveSteps path bytes) fs') :
    ∃ spots, SameBut spots fs fs'
      ∧ (∀ s ∈ spots, fs.locate path = .ok s ∨ fs.locate (Replace.temporaryPath path) = .ok s)
      ∧ ∀ spot, fs.locate path = .ok spot →
        fs'.fileAt? spot = fs.fileAt? spot ∨ fs'.fileAt? spot = some bytes := by
  rcases h.write htree with rfl | ⟨temp, htemp, -, hwritten⟩
  · exact ⟨[], SameBut.refl fs', by simp, fun _ _ => .inl rfl⟩
  have hne : ∀ {spot}, fs.locate path = .ok spot → temp ≠ spot := fun hspot =>
    let ⟨_, _, _, _, _, hne⟩ := locate_append isSuffix_tmp hspot htemp
    hne
  -- as long as only the temporary file is touched, the file is the old one
  have hold : SameBut [temp] fs fs' → ∀ spot, fs.locate path = .ok spot →
      fs'.fileAt? spot = fs.fileAt? spot := fun hsame spot hspot =>
    fileAt?_congr (hsame.entry spot fun hmem => hne hspot (List.mem_singleton.mp hmem).symm)
  rcases hwritten with hsame | ⟨fs₁, hsame, htree₁, hnew, hrest⟩
  · exact ⟨[temp], hsame, by simp [htemp], fun spot hspot => .inl (hold hsame spot hspot)⟩
  · cases hrest with
    | here => exact ⟨[temp], hsame, by simp [htemp], fun spot hspot => .inl (hold hsame spot hspot)⟩
    | next hrename hrest =>
      obtain ⟨new, hnewSpot, -, -, -, hfree, rfl⟩ :=
        (rename_eq_ok (hsame.locate.mpr htemp) hnew).mp hrename
      have hpath := hsame.locate.mp hnewSpot
      rw [if_neg (hne hpath)] at hrest
      cases hrest
      refine ⟨_, hsame.trans (htree₁.sameBut_move hnew hfree (hne hpath)), ?_, fun spot hspot => ?_⟩
      · simp [hpath, htemp]
      · cases hpath.symm.trans hspot
        refine .inr (fileAt?_eq_some.mpr ?_)
        rw [htree₁.entry?_move hnew (ne_nil_of_entry hfree) (hne hpath), if_pos rfl]

/-! ## No text is lost -/

/-- However a replacement of a file is cut short, the whole old text is at its path, or the whole
new one at its path or beside it. However a save of the dictionary is cut short, its path leads to
the whole old file, or to none where none was, or to the whole new one. -/
theorem interruption_safe (fs : FileSystem) (htree : fs.IsTree) (plan : List (Option Accident)) :
    (∀ (path text : String) (old : ByteArray), fs.read path = .ok old →
      let left := filesAfter (replaceFile path text) (FaultyDisk.mk fs plan false)
      left.read path = .ok old ∨ left.read (Replace.siblingPath path) = .ok text.toUTF8
        ∨ left.read path = .ok text.toUTF8)
    ∧ ∀ (d : Dictionary) (path : String),
      let left := filesAfter (d.save path) (FaultyDisk.mk fs plan false)
      (∀ old, fs.read path = .ok old →
        left.read path = .ok old ∨ left.read path = .ok d.toJson.toUTF8)
      ∧ ∀ spot, left.locate path = .ok spot →
        left.fileAt? spot = fs.fileAt? spot ∨ left.fileAt? spot = some d.toJson.toUTF8 := by
  refine ⟨fun path text old hold => ?_, fun d path => ?_⟩
  · have hsteps := interrupted_carryOut (Replace.replaceSteps path text.toUTF8)
      (FaultyDisk.mk fs plan false)
    exact hsteps.replace htree hold
  · intro left
    obtain ⟨mid, hroom, hsteps⟩ := exists_room_save d path (FaultyDisk.mk fs plan false)
    obtain ⟨spots, hsame, -, hfile⟩ := hsteps.save (hroom.isTree htree)
    have hleft : ∀ spot, mid.locate path = .ok spot →
        left.fileAt? spot = fs.fileAt? spot ∨ left.fileAt? spot = some d.toJson.toUTF8 :=
      fun spot hspot => hroom.fileAt? spot ▸ hfile spot hspot
    refine ⟨fun old hold => ?_, fun spot hspot => hleft spot (hsame.locate.mp hspot)⟩
    obtain ⟨spot, hspot, hentry⟩ := read_eq_ok.mp hold
    have hspot' := hroom.locate hspot
    refine (hleft spot hspot').imp (fun h => ?_) fun h => ?_
    all_goals refine read_eq_ok.mpr ⟨spot, hsame.locate.mpr hspot', fileAt?_eq_some.mp ?_⟩
    · rw [h, fileAt?_eq_some, hentry]
    · exact h

theorem interruption_safe_stopped :
    let fs : FileSystem := ⟨[(["A.java"], .file "class A { int a; }".toUTF8)], []⟩
    let plan := [none, none, none, none, some (Accident.mk 0 none)]
    let left := filesAfter (replaceFile "A.java" "class A { int i; }") (FaultyDisk.mk fs plan false)
    fs.IsTree ∧ fs.read "A.java" = .ok "class A { int a; }".toUTF8
      ∧ (left.read "A.java" = .ok "class A { int a; }".toUTF8
        ∨ left.read "A.java.fixed" = .ok "class A { int i; }".toUTF8
        ∨ left.read "A.java" = .ok "class A { int i; }".toUTF8) := by
  intro fs plan left
  have htree : fs.IsTree := isTree_of_flat (by decide)
  have hread : fs.read "A.java" = .ok "class A { int a; }".toUTF8 := by rfl
  exact ⟨htree, hread, (interruption_safe fs htree plan).1 _ _ _ hread⟩

end Legible
