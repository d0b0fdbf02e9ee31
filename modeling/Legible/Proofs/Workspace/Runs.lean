import Legible.Proofs.Layout.Fidelity
import Legible.Proofs.Workspace.Discovery
import Legible.Proofs.Workspace.Saving
import Legible.Run

/-!
# What a run touches

A run on a file system reads until it knows all it needs, and only then writes. A dump writes the
dictionary. A fix replaces the files one by one, and what becomes of one of them
(`replaceFile_run`) is not disturbed by the others as long as no two of them, and no file and the
one beside another, are the same (`Apart`, `replaceAll_run`).
-/

namespace Legible

open FileSystem

variable {fs fs' fs₁ fs₂ : FileSystem} {path p q : String} {paths failed : List String}
  {bytes old : ByteArray} {spots : List Location} {files : List String}
  {s spot s' t sibling : Location} {u : SourceUnit} {settings : Settings} {fault : FileFault}
  {todo : List (String × String)} {e : Error} {d : Dictionary} {units : List SourceUnit}

abbrev OnFiles := ExceptT Error (StateM FileSystem)

/-! ## Replacing a file -/

theorem run_carryOut_of_ok {s : Step} (rest : List Step) (h : fs.perform s.action = .ok fs') :
    (carryOut (s :: rest) : OnFiles Unit).run fs = (carryOut rest : OnFiles Unit).run fs' := by
  have hact : (Disk.act s.action : StateM FileSystem _) fs = (.ok (), fs') := by
    change fs.act s.action = _
    rw [FileSystem.act, h]
  rw [run_carryOut_cons, hact]

theorem run_carryOut_of_error {s : Step} (rest : List Step)
    (h : fs.perform s.action = .error fault) :
    (carryOut (s :: rest) : OnFiles Unit).run fs = (.error (.file s.path fault), fs) := by
  have hact : (Disk.act s.action : StateM FileSystem _) fs = (.error fault, fs) := by
    change fs.act s.action = _
    rw [FileSystem.act, h]
  rw [run_carryOut_cons, hact]

/-- Whether a new text can be written beside a file. -/
def FileSystem.hasRoomBeside (fs : FileSystem) (path : String) : Bool :=
  (fs.create (Replace.siblingPath path)).toBool

theorem hasRoomBeside_iff :
    fs.hasRoomBeside path = true ↔ ∃ sibling, fs.locate (Replace.siblingPath path) = .ok sibling
      ∧ fs.entry? sibling ≠ some .directory := by
  have hcreate : fs.hasRoomBeside path = true
      ↔ ∃ fs', fs.create (Replace.siblingPath path) = .ok fs' := by
    rw [hasRoomBeside]
    cases fs.create (Replace.siblingPath path) <;> simp [Except.toBool]
  simp [hcreate, create_eq_ok]

theorem FileSystem.SameBut.hasRoomBeside (h : SameBut spots fs fs') (path : String) :
    fs'.hasRoomBeside path = fs.hasRoomBeside path := by
  rw [Bool.eq_iff_iff, hasRoomBeside_iff, hasRoomBeside_iff]
  simp only [h.locate, ne_eq, h.directory]

/-- Where there is no room beside a file it cannot be replaced, and nothing changes. -/
theorem run_replaceFile_of_refused (h : fs.hasRoomBeside path = false) (text : String) :
    ∃ e, (replaceFile path text : OnFiles Unit).run fs = (.error e, fs) := by
  rw [hasRoomBeside] at h
  cases hcreate : fs.create (Replace.siblingPath path) with
  | ok fs' => simp [hcreate, Except.toBool] at h
  | error fault => exact ⟨_, run_carryOut_of_error _ hcreate⟩

/-- A file is written where no directory is. -/
theorem run_writeSteps (hspot : fs.locate path = .ok spot) (hdir : fs.entry? spot ≠ some .directory)
    (bytes : ByteArray) (rest : List Step) :
    ∃ fs', (carryOut (Replace.writeSteps path bytes ++ rest) : OnFiles Unit).run fs
        = (carryOut rest : OnFiles Unit).run fs'
      ∧ SameBut [spot] fs fs' ∧ fs'.entry? spot = some (.file bytes) := by
  have hne := ne_nil_of_entry hdir
  have hmade := sameBut_put hdir ByteArray.empty
  have hentry := entry?_put fs hne (.file ByteArray.empty) spot
  rw [if_pos rfl] at hentry
  have hwritten := sameBut_put (by rw [hentry]; simp) (ByteArray.empty ++ bytes)
  have hentry' := entry?_put (fs.put spot (.file ByteArray.empty)) hne
    (.file (ByteArray.empty ++ bytes)) spot
  rw [if_pos rfl, ByteArray.empty_append] at hentry'
  rw [ByteArray.empty_append] at hwritten
  refine ⟨_, ?_, (hmade.trans hwritten).mono (by simp), hentry'⟩
  have hcreate : fs.perform (.create path) = .ok (fs.put spot (.file ByteArray.empty)) :=
    create_eq_ok.mpr ⟨spot, hspot, hdir, rfl⟩
  have happend : (fs.put spot (.file ByteArray.empty)).perform (.append path bytes)
      = .ok ((fs.put spot (.file ByteArray.empty)).put spot (.file bytes)) := by
    refine append_eq_ok.mpr ⟨spot, _, hmade.locate.mpr hspot, hentry, ?_⟩
    rw [ByteArray.empty_append]
  have hread : ((fs.put spot (.file ByteArray.empty)).put spot (.file bytes)).read path
      = .ok bytes :=
    read_eq_ok.mpr ⟨spot, hwritten.locate.mpr (hmade.locate.mpr hspot), hentry'⟩
  rw [Replace.writeSteps, List.cons_append, run_carryOut_of_ok _ hcreate, List.cons_append,
    run_carryOut_of_ok _ happend, List.cons_append, List.nil_append, run_carryOut_of_ok]
  rw [perform, hread]
  rfl

/-- A file that there is room beside is replaced, and then nothing is beside it. -/
theorem run_replaceFile (htree : fs.IsTree) (hspot : fs.locate path = .ok spot)
    (hfile : fs.entry? spot = some (.file old))
    (hsibling : fs.locate (Replace.siblingPath path) = .ok sibling)
    (hdir : fs.entry? sibling ≠ some .directory) (text : String) :
    ∃ fs', (replaceFile path text : OnFiles Unit).run fs = (.ok (), fs')
      ∧ SameBut [spot, sibling] fs fs' ∧ fs'.entry? spot = some (.file text.toUTF8)
      ∧ fs'.entry? sibling = none := by
  obtain ⟨-, -, -, -, -, hne⟩ := locate_append isSuffix_fixed hspot hsibling
  obtain ⟨fs₁, hrun, hwritten, hnew⟩ := run_writeSteps hsibling hdir text.toUTF8
    (Replace.swapSteps (Replace.siblingPath path) path)
  have htree₁ := hwritten.isTree htree fun s hs => ⟨_, List.mem_singleton.mp hs ▸ hsibling⟩
  have hspot₁ := hwritten.locate.mpr hspot
  have hfile₁ : entry? fs₁ spot = some (.file old) := by
    rw [hwritten.entry spot (by simpa using hne.symm), hfile]
  -- the old file is deleted
  have hremove : fs₁.perform (.remove path) = .ok (fs₁.erase spot) :=
    remove_eq_ok.mpr ⟨spot, old, hspot₁, hfile₁, rfl⟩
  have hdir₁ : entry? fs₁ spot ≠ some .directory := by simp [hfile₁]
  have hgone := sameBut_erase hdir₁
  have hentry := entry?_erase fs₁ (ne_nil_of_entry hdir₁)
  have htree₂ := hgone.isTree htree₁ fun s hs => ⟨_, List.mem_singleton.mp hs ▸ hspot₁⟩
  have hnew₂ : entry? (fs₁.erase spot) sibling = some (.file text.toUTF8) := by
    rw [hentry, if_neg hne, hnew]
  have hfree₂ : entry? (fs₁.erase spot) spot ≠ some .directory := by simp [hentry]
  have hspot₂ := hgone.locate.mpr hspot₁
  have hsibling₂ := hgone.locate.mpr (hwritten.locate.mpr hsibling)
  -- the new one takes its place
  obtain ⟨-, -, -, hname, hslash⟩ := htree₂.exists_name hspot₂ hfree₂
  obtain ⟨-, -, -, hname', -⟩ := htree₂.exists_name hsibling₂ (by simp [hnew₂])
  have hrename : (fs₁.erase spot).perform (.rename (Replace.siblingPath path) path)
      = .ok ((fs₁.erase spot).move sibling spot) :=
    (rename_eq_ok hsibling₂ hnew₂).mpr
      ⟨spot, hspot₂, hname', hname, hslash, hfree₂, (if_neg hne).symm⟩
  have hmoved := htree₂.sameBut_move hnew₂ hfree₂ hne
  have hentry' := htree₂.entry?_move hnew₂ (ne_nil_of_entry hfree₂) hne
  refine ⟨_, ?_, ((hwritten.trans hgone).trans hmoved).mono (by simp), ?_, ?_⟩
  · rw [replaceFile, Replace.replaceSteps, hrun, Replace.swapSteps, run_carryOut_of_ok _ hremove,
      run_carryOut_of_ok _ hrename]
    rfl
  · rw [hentry', if_pos rfl]
  · rw [hentry', if_neg hne, if_pos rfl]

/-! ## Replacing files one by one -/

/-- The paths lead to different files, and none of these is beside another. -/
structure Apart (fs : FileSystem) (paths : List String) : Prop where
  distinct : ∀ p ∈ paths, ∀ q ∈ paths, p ≠ q → ∀ s, fs.locate p = .ok s → fs.locate q ≠ .ok s
  beside : ∀ p ∈ paths, ∀ q ∈ paths, ∀ s, fs.locate p = .ok s →
    fs.locate (Replace.siblingPath q) ≠ .ok s

/-- The places that the replacement of a file may change. -/
def Touches (fs : FileSystem) (path : String) (s : Location) : Prop :=
  fs.locate path = .ok s ∨ fs.locate (Replace.siblingPath path) = .ok s

theorem FileSystem.SameBut.touches (h : SameBut spots fs fs') :
    Touches fs' path s ↔ Touches fs path s := by
  rw [Touches, Touches, h.locate, h.locate]

theorem FileSystem.SameBut.read (h : SameBut spots fs fs') (hread : fs.read path = .ok bytes)
    (hspots : ∀ s, fs.locate path = .ok s → s ∉ spots) :
    fs'.read path = .ok bytes := by
  obtain ⟨s, hs, hentry⟩ := read_eq_ok.mp hread
  exact read_eq_ok.mpr ⟨s, h.locate.mpr hs, (h.entry s (hspots s hs)).trans hentry⟩

/-- What is beside different files is different. -/
theorem locate_sibling_ne (hp : fs.locate p = .ok s) (hq : fs.locate q = .ok s') (hne : s ≠ s')
    (ht : fs.locate (Replace.siblingPath p) = .ok t) :
    fs.locate (Replace.siblingPath q) ≠ .ok t := by
  intro ht'
  obtain ⟨inner, last, -, rfl, htp, -⟩ := locate_append isSuffix_fixed hp ht
  obtain ⟨inner', last', -, rfl, htq, -⟩ := locate_append isSuffix_fixed hq ht'
  obtain ⟨rfl, hlast⟩ := List.append_inj' (htp.symm.trans htq) rfl
  have hlast : last ++ ".fixed" = last' ++ ".fixed" := List.head_eq_of_cons_eq hlast
  have hlast : last = last' := by
    rw [← String.toList_inj] at hlast ⊢
    simpa using hlast
  exact hne (hlast ▸ rfl)

namespace Apart

variable {p q : String} {paths' : List String}

theorem mono (h : Apart fs paths) (hsub : paths' ⊆ paths) : Apart fs paths' where
  distinct p hp q hq := h.distinct p (hsub hp) q (hsub hq)
  beside p hp q hq := h.beside p (hsub hp) q (hsub hq)

theorem sameBut (h : Apart fs paths) (hsame : SameBut spots fs fs') :
    Apart fs' paths where
  distinct p hp q hq hne s hs := fun hs' =>
    h.distinct p hp q hq hne s (hsame.locate.mp hs) (hsame.locate.mp hs')
  beside p hp q hq s hs := fun hs' =>
    h.beside p hp q hq s (hsame.locate.mp hs) (hsame.locate.mp hs')

theorem not_touches (h : Apart fs paths) (hp : p ∈ paths) (hq : q ∈ paths) (hne : p ≠ q)
    (hs : fs.locate p = .ok s) : ¬ Touches fs q s := by
  rintro (hs' | hs')
  · exact h.distinct p hp q hq hne s hs hs'
  · exact h.beside p hp q hq s hs hs'

/-- The replacement of a file does not change what is beside another one. -/
theorem not_touches_sibling (h : Apart fs paths) (hp : p ∈ paths) (hq : q ∈ paths) (hne : p ≠ q)
    (hs : fs.locate p = .ok s) (hs' : fs.locate q = .ok s')
    (ht : fs.locate (Replace.siblingPath p) = .ok t) : ¬ Touches fs q t := by
  rintro (ht' | ht')
  · exact h.beside q hq p hp t ht' ht
  · refine locate_sibling_ne hs hs' (fun heq => ?_) ht ht'
    exact h.distinct p hp q hq hne s hs (heq ▸ hs')

end Apart

def FileSystem.HasFile (fs : FileSystem) (path : String) : Prop := ∃ bytes, fs.read path = .ok bytes

theorem run_replaceAll_cons (path text : String) (todo : List (String × String))
    (fs : FileSystem) :
    (replaceAll ((path, text) :: todo) : StateM FileSystem (Nat × List Failure)) fs
      = let (written, fs₁) := (replaceFile path text : OnFiles Unit).run fs
        let ((fixed, failures), fs₂) :=
          (replaceAll todo : StateM FileSystem (Nat × List Failure)) fs₁
        match written with
        | .ok () => ((fixed + 1, failures), fs₂)
        | .error e => ((fixed, (path, e.message) :: failures), fs₂) := by
  rw [replaceAll, bind_apply, bind_apply]
  rcases (replaceFile path text : OnFiles Unit).run fs with
    ⟨_ | ⟨⟨⟩⟩, fs₁⟩ <;> rfl

/-- The files that there is room beside are replaced, and the others fail. -/
theorem run_replaceAll (htree : fs.IsTree) (hnodup : (todo.map Prod.fst).Nodup)
    (happart : Apart fs (todo.map Prod.fst)) (hfiles : ∀ p ∈ todo.map Prod.fst, fs.HasFile p) :
    ∃ fixed failures fs',
      (replaceAll todo : StateM FileSystem (Nat × List Failure)) fs = ((fixed, failures), fs')
      ∧ fixed + failures.length = todo.length
      ∧ (∃ spots, SameBut spots fs fs' ∧ ∀ s ∈ spots, ∃ p ∈ todo.map Prod.fst,
          fs.hasRoomBeside p = true ∧ Touches fs p s)
      ∧ failures.map Prod.fst = (todo.map Prod.fst).filter (!fs.hasRoomBeside ·)
      ∧ ∀ item ∈ todo, fs.hasRoomBeside item.1 = true →
        fs'.read item.1 = .ok item.2.toUTF8 ∧ fs'.kind? (Replace.siblingPath item.1) = none := by
  induction todo generalizing fs with
  | nil => exact ⟨0, [], fs, rfl, rfl, ⟨[], SameBut.refl fs, by simp⟩, rfl, by simp⟩
  | cons item todo ih =>
    obtain ⟨path, text⟩ := item
    rw [List.map_cons] at hnodup happart hfiles
    obtain ⟨hpath, hnodup⟩ := List.nodup_cons.mp hnodup
    have hrest : todo.map Prod.fst ⊆ path :: todo.map Prod.fst := List.subset_cons_self _ _
    rw [run_replaceAll_cons]
    cases hroom : fs.hasRoomBeside path with
    | false =>
      obtain ⟨e, hfirst⟩ := run_replaceFile_of_refused hroom text
      obtain ⟨fixed, failures, fs', hrun, hcount, ⟨spots, hsame, hspots⟩, hfailures, hdone⟩ :=
        ih htree hnodup (happart.mono hrest) fun p hp => hfiles p (hrest hp)
      refine ⟨fixed, _, fs', by rw [hfirst]; dsimp only; rw [hrun], congrArg (· + 1) hcount,
        ⟨spots, hsame, fun s hs => ?_⟩, ?_, ?_⟩
      · obtain ⟨p, hp, htouch⟩ := hspots s hs
        exact ⟨p, hrest hp, htouch⟩
      · simp [hroom, hfailures]
      · rintro item hitem hitemRoom
        rcases List.mem_cons.mp hitem with rfl | hitem
        · exact absurd hitemRoom (by simp [hroom])
        · exact hdone item hitem hitemRoom
    | true =>
      obtain ⟨old, hold⟩ := hfiles path (List.mem_cons_self ..)
      obtain ⟨spot, hspot, hentry⟩ := read_eq_ok.mp hold
      obtain ⟨sibling, hsibling, hdir⟩ := hasRoomBeside_iff.mp hroom
      obtain ⟨fs₁, hfirst, hsame₁, hnew, hgone⟩ :=
        run_replaceFile htree hspot hentry hsibling hdir text
      have htouches : ∀ s ∈ [spot, sibling], Touches fs path s := by simp [Touches, hspot, hsibling]
      have htree₁ := hsame₁.isTree htree fun s hs =>
        (htouches s hs).elim (fun h => ⟨_, h⟩) fun h => ⟨_, h⟩
      have hne : ∀ q ∈ todo.map Prod.fst, q ≠ path := fun q hq heq => hpath (heq ▸ hq)
      have hfiles₁ : ∀ q ∈ todo.map Prod.fst, fs₁.HasFile q := fun q hq => by
        obtain ⟨bytes, hq'⟩ := hfiles q (hrest hq)
        refine ⟨bytes, hsame₁.read hq' fun s hs hmem => ?_⟩
        exact happart.not_touches (hrest hq) (List.mem_cons_self ..) (hne q hq) hs (htouches s hmem)
      obtain ⟨fixed, failures, fs', hrun, hcount, ⟨spots, hsame, hspots⟩, hfailures, hdone⟩ :=
        ih htree₁ hnodup ((happart.mono hrest).sameBut hsame₁) hfiles₁
      refine ⟨fixed + 1, failures, fs', by rw [hfirst]; dsimp only; rw [hrun],
        by rw [Nat.add_right_comm, hcount, List.length_cons],
        ⟨_, hsame₁.trans hsame, fun s hs => ?_⟩, ?_, fun item hitem hitemRoom => ?_⟩
      · rcases List.mem_append.mp hs with hs | hs
        · exact ⟨path, List.mem_cons_self .., hroom, htouches s hs⟩
        · obtain ⟨p, hp, hpRoom, htouch⟩ := hspots s hs
          exact ⟨p, hrest hp, hsame₁.hasRoomBeside p ▸ hpRoom, hsame₁.touches.mp htouch⟩
      · simp only [hfailures, List.map_cons, List.filter_cons, hroom, hsame₁.hasRoomBeside]
        rfl
      · rcases List.mem_cons.mp hitem with rfl | hitem
        · -- the others leave alone what was written, and the place beside it
          refine ⟨hsame.read (read_eq_ok.mpr ⟨spot, hsame₁.locate.mpr hspot, hnew⟩) ?_, ?_⟩
          · intro s hs hmem
            obtain ⟨p, hp, -, htouch⟩ := hspots s hmem
            exact happart.not_touches (List.mem_cons_self ..) (hrest hp) (hne p hp).symm
              (hsame₁.locate.mp hs) (hsame₁.touches.mp htouch)
          · have hmem : sibling ∉ spots := fun hmem => by
              obtain ⟨p, hp, -, htouch⟩ := hspots sibling hmem
              obtain ⟨bytes, hread⟩ := hfiles p (hrest hp)
              obtain ⟨s, hs, -⟩ := read_eq_ok.mp hread
              exact happart.not_touches_sibling (List.mem_cons_self ..) (hrest hp)
                (hne p hp).symm hspot hs hsibling (hsame₁.touches.mp htouch)
            have hlocate := hsame.locate.mpr (hsame₁.locate.mpr hsibling)
            simp only [kind?, hlocate, hsame.entry sibling hmem, hgone]
        · exact hdone item hitem (hsame₁.hasRoomBeside item.1 ▸ hitemRoom)

/-! ## Reading -/

section Reading

variable {α : Type}

/-- What an operation gives that only reads. -/
theorem run_of_reads {x : StateM FileSystem α} (h : Leads Eq x) (fs : FileSystem) :
    x fs = ((x fs).1, fs) :=
  Prod.ext rfl (h fs).symm

theorem reads_readFile (path : String) : Leads Eq (Disk.readFile path : OnFiles ByteArray).run := by
  refine .tryBind (.lift fun _ => rfl) fun answer => ?_
  cases answer <;> exact .pure _

theorem reads_readText (path : String) : Leads Eq (Disk.readText path : OnFiles String).run := by
  refine .tryBind (reads_readFile path) fun bytes => ?_
  cases Text.decode bytes <;> exact .pure _

theorem reads_load (path : String) : Leads Eq (Dictionary.load path : OnFiles Dictionary).run := by
  refine .tryBind (.lift (.exists? path)) fun found => ?_
  cases found with
  | false => exact .pure _
  | true =>
    refine .tryBind (reads_readText path) fun text => ?_
    cases Dictionary.ofJson path text <;> exact .pure _

theorem reads_found (path : String) :
    Leads Eq (Discover.found path : StateM FileSystem (List String)) := by
  refine .bind (.kind? path) fun kind => ?_
  rcases kind with _ | ⟨_ | _⟩
  · exact .pure _
  · exact .pure _
  · dsimp only
    split
    · exact .pure _
    · exact .bind (fun _ => rfl) fun _ => .pure _

theorem reads_discover (paths : List String) :
    Leads Eq (discover paths : StateM FileSystem (List String)) := by
  refine .bind ?_ fun _ => .pure _
  induction paths with
  | nil => exact .pure _
  | cons path paths ih =>
    rw [List.mapM_cons]
    exact .bind (reads_found path) fun _ => .bind ih fun _ => .pure _

theorem reads_parseFile (parser : FrontEnd) (path : String) :
    Leads Eq (parseFile parser path : OnFiles SourceUnit).run := by
  refine .tryBind (reads_readFile path) fun bytes => ?_
  cases SourceUnit.ofBytes parser path bytes <;> exact .pure _

end Reading

namespace FileSystem

def loaded (fs : FileSystem) (path : String) : Except Error Dictionary :=
  ((Dictionary.load path : ExceptT Error (StateM FileSystem) Dictionary).run fs).1

def discovered (fs : FileSystem) (paths : List String) : List String :=
  ((discover paths : StateM FileSystem (List String)) fs).1

def unitAt (fs : FileSystem) (parser : FrontEnd) (path : String) : Except Error SourceUnit :=
  ((parseFile parser path : ExceptT Error (StateM FileSystem) SourceUnit).run fs).1

def unitsAt (fs : FileSystem) (parser : FrontEnd) (paths : List String) : List SourceUnit :=
  paths.filterMap fun p => (fs.unitAt parser p).toOption

variable (parser : FrontEnd)

theorem loaded_of_kind?_eq_none (h : fs.kind? path = none) : fs.loaded path = .ok .empty := by
  have hexists : (Disk.exists? path : StateM FileSystem Bool) fs
      = ((fs.kind? path).isSome, fs) := rfl
  rw [loaded, Dictionary.load, run_bind, run_lift, hexists, h]
  rfl

theorem nodup_discovered (fs : FileSystem) (paths : List String) : (fs.discovered paths).Nodup :=
  Path.nodup_sorted _

theorem unitAt_eq (fs : FileSystem) (path : String) :
    fs.unitAt parser path = match fs.read path with
      | .ok bytes => SourceUnit.ofBytes parser path bytes
      | .error fault => .error (.file path fault) := by
  have hread : (Disk.readFile path : OnFiles ByteArray).run fs
      = match fs.read path with
        | .ok bytes => (.ok bytes, fs)
        | .error fault => (.error (.file path fault), fs) := by
    rw [Disk.readFile, run_bind, run_lift]
    change (match fs.read path with
      | .ok bytes => _
      | .error fault => _ : OnFiles ByteArray).run fs = _
    cases fs.read path <;> rfl
  rw [unitAt, parseFile, run_bind, hread]
  cases fs.read path with
  | error fault => rfl
  | ok bytes =>
    dsimp only
    cases SourceUnit.ofBytes parser path bytes <;> rfl

variable {parser}

theorem unitAt_eq_ok (h : fs.unitAt parser path = .ok u) : fs.HasFile path ∧ u.path = path := by
  rw [unitAt_eq] at h
  split at h
  · next bytes hread =>
      refine ⟨⟨bytes, hread⟩, ?_⟩
      simp only [SourceUnit.ofBytes, SourceUnit.parse] at h
      repeat' split at h
      all_goals cases h
      rfl
  · cases h

theorem map_path_unitsAt (fs : FileSystem) (paths : List String) :
    (fs.unitsAt parser paths).map SourceUnit.path
      = paths.filter fun p => (fs.unitAt parser p).toBool := by
  induction paths with
  | nil => rfl
  | cons path paths ih =>
    rw [unitsAt] at ih ⊢
    rw [List.filterMap_cons, List.filter_cons]
    cases hunit : fs.unitAt parser path with
    | error e => simpa [Except.toOption, Except.toBool] using ih
    | ok u => simpa [Except.toOption, Except.toBool, (unitAt_eq_ok hunit).2] using ih

end FileSystem

/-- Parsing gives the units of the files that can be parsed, and reports the others. -/
theorem run_parseAll (parser : FrontEnd) (fs : FileSystem) (paths : List String) :
    ∃ failures, (parseAll parser paths : StateM FileSystem (List SourceUnit × List Failure)) fs
        = ((fs.unitsAt parser paths, failures), fs)
      ∧ failures.map Prod.fst = paths.filter fun p => !(fs.unitAt parser p).toBool := by
  induction paths with
  | nil => exact ⟨[], rfl, rfl⟩
  | cons path paths ih =>
    obtain ⟨failures, hrun, hfailures⟩ := ih
    have hread := run_of_reads (reads_parseFile parser path) fs
    rw [← unitAt] at hread
    rw [parseAll, bind_apply, hread, bind_apply, hrun]
    simp only [unitsAt, List.filterMap_cons]
    cases hunit : fs.unitAt parser path with
    | ok u => exact ⟨failures, rfl, by simp [hfailures, hunit, Except.toBool]⟩
    | error e =>
      exact ⟨(path, e.message) :: failures, rfl, by simp [hfailures, hunit, Except.toBool]⟩

/-! ## Runs -/

theorem run_of_not_loaded (parser : FrontEnd) (h : fs.loaded settings.symbols = .error e) :
    (run parser settings : OnFiles Run.Outcome).run fs = (.error e, fs) := by
  rw [run, run_bind, run_of_reads (reads_load settings.symbols), ← loaded, h]

theorem run_of_loaded (parser : FrontEnd) (h : fs.loaded settings.symbols = .ok d) :
    let files := fs.discovered settings.paths
    let units := fs.unitsAt parser files
    ∃ start : Summary, start.mode = settings.mode ∧ start.discovered = files.length
      ∧ start.failures.map Prod.fst = (files.filter fun p => !(fs.unitAt parser p).toBool)
      ∧ (run parser settings : OnFiles Run.Outcome).run fs
        = (match settings.mode with
          | .dump wanted => Run.dump settings wanted d units start
          | .fix => liftM (Run.fix settings d units start : StateM FileSystem Run.Outcome) :
            OnFiles Run.Outcome).run fs := by
  intro files units
  obtain ⟨failures, hparse, hfailures⟩ := run_parseAll parser fs files
  refine ⟨{ mode := settings.mode, discovered := files.length, parsed := units.length,
            loaded := d.loadedCount, failures }, rfl, rfl, hfailures, ?_⟩
  rw [run, run_bind, run_of_reads (reads_load settings.symbols), ← loaded, h]
  dsimp only
  rw [run_bind, run_lift, run_of_reads (reads_discover settings.paths)]
  dsimp only
  rewrite [← discovered, run_bind, run_lift, hparse]
  rfl

/-- A dump ends with what is left of saving a dictionary. -/
theorem exists_save_of_dump (settings : Settings) (wanted : Found) (d : Dictionary)
    (units : List SourceUnit) (start : Summary) (fs : FileSystem) :
    ∃ d' : Dictionary, filesAfter (Run.dump settings wanted d units start) fs
      = filesAfter (d'.save settings.symbols) fs := by
  refine ⟨(Survey.survey wanted d (analyze d .preserve units)).1, ?_⟩
  rw [filesAfter, Run.dump, run_bind, filesAfter]
  rcases ((Survey.survey wanted d (analyze d .preserve units)).1.save settings.symbols :
    OnFiles Unit).run fs with ⟨_ | ⟨⟨⟩⟩, fs'⟩ <;> rfl

/-- Saving changes the dictionary, the temporary file and missing directories around them. -/
theorem entry?_save (htree : fs.IsTree) (d : Dictionary) (path : String) (s : Location) :
    let fs' := filesAfter (d.save path) fs
    fs'.entry? s = fs.entry? s ∨ fs'.locate path = .ok s
      ∨ fs'.locate (Replace.temporaryPath path) = .ok s
      ∨ fs.entry? s = none ∧ fs'.entry? s = some .directory
        ∧ ∃ dir ∈ roomPaths path, fs'.locate dir = .ok s := by
  intro fs'
  obtain ⟨mid, hroom, hsteps⟩ := exists_room_save d path fs
  obtain ⟨spots, hsame, hspots, -⟩ := hsteps.save (hroom.isTree htree)
  by_cases hs : s ∈ spots
  · exact .inr ((hspots s hs).imp hsame.locate.mpr fun h => .inl (hsame.locate.mpr h))
  · have hmid := hsame.entry s hs
    cases hentry : fs.entry? s with
    | some entry => exact .inl (hmid.trans (hroom.kept s entry hentry))
    | none =>
      rcases hroom.made s hentry with hnone | ⟨hdir, dir, hmem, hlocate⟩
      · exact .inl (hmid.trans hnone)
      · exact .inr (.inr (.inr ⟨rfl, hmid.trans hdir, dir, hmem, hsame.locate.mpr hlocate⟩))

/-- Whether a run writes a file anew: it can be parsed, and there is room beside it. -/
def FileSystem.isFixed (fs : FileSystem) (parser : FrontEnd) (path : String) : Bool :=
  (fs.unitAt parser path).toBool && fs.hasRoomBeside path

/-- The files that cannot be parsed, and then those that there is no room beside, are the files that
are not written anew, each once. -/
theorem failed_of_filters (parser : FrontEnd) (hnodup : files.Nodup)
    (hfailed : failed = (files.filter fun p => !(fs.unitAt parser p).toBool)
      ++ ((files.filter fun p => (fs.unitAt parser p).toBool).filter (!fs.hasRoomBeside ·))) :
    (∀ p, p ∈ failed ↔ p ∈ files ∧ fs.isFixed parser p = false) ∧ failed.Nodup := by
  subst hfailed
  refine ⟨fun p => ?_, List.nodup_append.mpr
    ⟨hnodup.filter _, (hnodup.filter _).filter _, fun p hp q hq heq => ?_⟩⟩
  · simp only [List.mem_append, List.mem_filter, FileSystem.isFixed]
    cases (fs.unitAt parser p).toBool <;> cases fs.hasRoomBeside p <;> simp
  · simp only [List.mem_filter] at hp hq
    simp [heq, hq.1.2] at hp

theorem map_unit_analyze (d : Dictionary) (policy : NamingPolicy) (units : List SourceUnit) :
    (analyze d policy units).map AnalyzedUnit.unit = units := by
  rw [analyze_eq_map, List.map_map]
  exact map_unit_inputs units

theorem exists_mem_analyze (d : Dictionary) (policy : NamingPolicy) (hu : u ∈ units) :
    ∃ a ∈ analyze d policy units, a.unit = u := by
  rw [← map_unit_analyze d policy units] at hu
  exact List.mem_map.mp hu

/-- A fix replaces the files of the units that there is room beside. -/
theorem run_fix (parser : FrontEnd) (settings : Settings) (d : Dictionary) (start : Summary)
    (htree : fs.IsTree) (hnodup : files.Nodup) (happart : Apart fs files) :
    ∃ failures outcome fs',
      (Run.fix settings d (fs.unitsAt parser files) start : StateM FileSystem Run.Outcome) fs
        = (outcome, fs')
      ∧ outcome.summary.discovered = start.discovered
      ∧ outcome.summary.failures = start.failures ++ failures
      ∧ outcome.summary.fixed + failures.length
        = (analyze d settings.policy (fs.unitsAt parser files)).length
      ∧ failures.map Prod.fst
        = (files.filter fun p => (fs.unitAt parser p).toBool).filter (!fs.hasRoomBeside ·)
      ∧ (∃ spots, SameBut spots fs fs' ∧ ∀ s ∈ spots, ∃ p ∈ files,
          fs.isFixed parser p = true ∧ Touches fs p s)
      ∧ ∀ a ∈ analyze d settings.policy (fs.unitsAt parser files),
        fs.hasRoomBeside a.unit.path = true →
        fs'.read a.unit.path
            = .ok (Layout.render a.unit a.symbols d settings.lineEnding).toUTF8
          ∧ fs'.kind? (Replace.siblingPath a.unit.path) = none := by
  have hunits := map_unit_analyze d settings.policy (fs.unitsAt parser files)
  generalize htodo : ((analyze d settings.policy (fs.unitsAt parser files)).map fun a =>
    (a.unit.path, Layout.render a.unit a.symbols d settings.lineEnding)) = todo
  have hpaths : todo.map Prod.fst = files.filter fun p => (fs.unitAt parser p).toBool := by
    rw [← map_path_unitsAt, ← hunits, ← htodo, List.map_map, List.map_map]
    rfl
  have hsub : todo.map Prod.fst ⊆ files := fun p hp => List.mem_of_mem_filter (hpaths ▸ hp)
  have hparsed : ∀ p ∈ todo.map Prod.fst, (fs.unitAt parser p).toBool = true := by
    intro p hp
    rw [hpaths, List.mem_filter] at hp
    exact hp.2
  have hfiles : ∀ p ∈ todo.map Prod.fst, fs.HasFile p := fun p hp => by
    have hp := hparsed p hp
    cases hunit : fs.unitAt parser p with
    | ok u => exact (unitAt_eq_ok hunit).1
    | error e => simp [hunit, Except.toBool] at hp
  obtain ⟨fixed, failures, fs', hrun, hwritten, ⟨spots, hsame, hspots⟩, hfailures, hdone⟩ :=
    run_replaceAll htree (hpaths ▸ hnodup.filter _) (happart.mono hsub) hfiles
  refine ⟨failures, ((Run.fix settings d (fs.unitsAt parser files) start :
    StateM FileSystem Run.Outcome) fs).1, fs', ?_, ?_, ?_, ?_, hpaths ▸ hfailures,
    ⟨spots, hsame, fun s hs => ?_⟩, fun a ha hroom => ?_⟩
  case refine_4 =>
    rw [Run.fix, bind_apply, htodo, hrun]
    rw [← htodo, List.length_map] at hwritten
    exact hwritten
  any_goals rw [Run.fix, bind_apply, htodo, hrun]; rfl
  · obtain ⟨p, hp, hroom, htouch⟩ := hspots s hs
    exact ⟨p, hsub hp, by rw [FileSystem.isFixed, hparsed p hp, hroom]; rfl, htouch⟩
  · have hitem : (a.unit.path, Layout.render a.unit a.symbols d settings.lineEnding) ∈ todo := by
      rw [← htodo]
      exact List.mem_map.mpr ⟨a, ha, rfl⟩
    exact hdone _ hitem hroom

/-- A run that cannot load the dictionary changes nothing. A dump changes the dictionary, the
temporary file beside it and missing directories around it. A fix whose files are apart changes
these files and those beside them only. A file that cannot be parsed or replaced keeps its bytes and
is reported once; every other holds its rendering, and nothing is left beside it. -/
theorem run_effects (parser : FrontEnd) (settings : Settings) (fs : FileSystem)
    (htree : fs.IsTree) :
    let ran := (run parser settings : ExceptT Error (StateM FileSystem) Run.Outcome).run fs
    let files := fs.discovered settings.paths
    (∀ e, fs.loaded settings.symbols = .error e → ran = (.error e, fs))
    ∧ (∀ wanted, settings.mode = .dump wanted → ∀ s,
        entry? ran.2 s = fs.entry? s ∨ ran.2.locate settings.symbols = .ok s
          ∨ ran.2.locate (Replace.temporaryPath settings.symbols) = .ok s
          ∨ fs.entry? s = none ∧ entry? ran.2 s = some .directory
            ∧ ∃ dir ∈ roomPaths settings.symbols, ran.2.locate dir = .ok s)
    ∧ ∀ d, fs.loaded settings.symbols = .ok d → settings.mode = .fix → Apart fs files →
      ∃ outcome, ran.1 = .ok outcome
        ∧ (∀ s, (∀ p ∈ files, ¬ Touches fs p s) → entry? ran.2 s = fs.entry? s)
        ∧ (∀ p ∈ files, fs.isFixed parser p = false →
            (∀ bytes, fs.read p = .ok bytes → ran.2.read p = .ok bytes)
            ∧ (outcome.summary.failures.map Prod.fst).count p = 1)
        ∧ (∀ p ∈ files, fs.isFixed parser p = true →
            (∃ a ∈ analyze d settings.policy (fs.unitsAt parser files),
              fs.unitAt parser p = .ok a.unit
              ∧ ran.2.read p = .ok (Layout.render a.unit a.symbols d settings.lineEnding).toUTF8)
            ∧ ran.2.kind? (Replace.siblingPath p) = none
            ∧ p ∉ outcome.summary.failures.map Prod.fst)
        ∧ outcome.summary.discovered = files.length
        ∧ outcome.summary.discovered = outcome.summary.fixed + outcome.summary.failures.length := by
  intro ran files
  refine ⟨fun e he => run_of_not_loaded parser he, fun wanted hmode s => ?_,
    fun d hd hmode happart => ?_⟩
  · cases hload : fs.loaded settings.symbols with
    | error e =>
      have hran : ran.2 = fs := congrArg Prod.snd (run_of_not_loaded parser hload)
      exact .inl (by rw [hran])
    | ok d =>
      obtain ⟨start, -, -, -, hrun⟩ := run_of_loaded parser hload
      rw [hmode] at hrun
      obtain ⟨d', hsave⟩ := exists_save_of_dump settings wanted d (fs.unitsAt parser files) start fs
      have hran : ran.2 = filesAfter (d'.save settings.symbols) fs :=
        (congrArg Prod.snd hrun).trans hsave
      rw [hran]
      exact entry?_save htree d' settings.symbols s
  · obtain ⟨start, -, (hstart : _ = files.length), (hunparsed : _ = files.filter _), hrun⟩ :=
      run_of_loaded parser hd
    have hnodup : files.Nodup := fs.nodup_discovered settings.paths
    obtain ⟨failures, outcome, fs', hfix, hcount, hfailures, hfixed, hunwritten,
        ⟨spots, hsame, hspots⟩, hdone⟩ :=
      run_fix parser settings d start htree hnodup happart
    have hran : ran = (.ok outcome, fs') := by
      rw [hmode, run_lift, hfix] at hrun
      exact hrun
    have hfailed : outcome.summary.failures.map Prod.fst
        = (files.filter fun p => !(fs.unitAt parser p).toBool)
          ++ ((files.filter fun p => (fs.unitAt parser p).toBool).filter (!fs.hasRoomBeside ·)) := by
      rw [hfailures, List.map_append, hunparsed, hunwritten]
    obtain ⟨hmem, honce⟩ := failed_of_filters parser hnodup hfailed
    rw [hran]
    refine ⟨outcome, rfl, fun s hs => ?_, fun p hp hfails => ⟨fun bytes hread => ?_, ?_⟩,
      fun p hp hfixes => ?_, hcount.trans hstart, ?_⟩
    · exact hsame.entry s fun hmem =>
        let ⟨p, hp, _, htouch⟩ := hspots s hmem
        hs p hp htouch
    · refine hsame.read hread fun s hs hmem => ?_
      obtain ⟨q, hq, hfixes, htouch⟩ := hspots s hmem
      refine happart.not_touches hp hq (fun heq => ?_) hs htouch
      rw [heq, hfixes] at hfails
      cases hfails
    · exact List.count_eq_one_of_mem honce ((hmem p).mpr ⟨hp, hfails⟩)
    · have hnot : p ∉ outcome.summary.failures.map Prod.fst := by simp [hmem, hfixes]
      obtain ⟨hparsed, hroom⟩ := Bool.and_eq_true_iff.mp hfixes
      cases hunit : fs.unitAt parser p with
      | error e => simp [hunit, Except.toBool] at hparsed
      | ok u =>
        have hmem : u ∈ fs.unitsAt parser files :=
          List.mem_filterMap.mpr ⟨p, hp, by rw [hunit]; rfl⟩
        obtain ⟨a, ha, rfl⟩ := exists_mem_analyze d settings.policy hmem
        obtain ⟨-, rfl⟩ := unitAt_eq_ok hunit
        exact ⟨⟨a, ha, rfl, (hdone a ha hroom).1⟩, (hdone a ha hroom).2, hnot⟩
    · have hsplit := files.length_eq_length_filter_add fun p => (fs.unitAt parser p).toBool
      have hunits : (analyze d settings.policy (fs.unitsAt parser files)).length
          = (files.filter fun p => (fs.unitAt parser p).toBool).length := by
        rw [← map_path_unitsAt, List.length_map, ← congrArg List.length (map_unit_analyze ..),
          List.length_map]
      have hrest := congrArg List.length hunparsed
      rw [List.length_map] at hrest
      rw [hcount, hstart, hfailures, List.length_append, hrest]
      omega

theorem run_effects_two :
    let fs : FileSystem :=
      ⟨[(["B.java"], .file "?".toUTF8), (["A.java"], .file Sample.box.source.toUTF8)], []⟩
    let parser : FrontEnd := fun text =>
      if text = Sample.box.source then some Sample.box.root else none
    let settings : Settings := ⟨["B.java", "A.java", "B.java"], "names.json", .lf, .fix, true⟩
    let files := fs.discovered settings.paths
    let ran := (run parser settings : ExceptT Error (StateM FileSystem) Run.Outcome).run fs
    fs.IsTree ∧ fs.loaded settings.symbols = .ok .empty ∧ Apart fs files
      ∧ fs.isFixed parser "A.java" = true ∧ fs.isFixed parser "B.java" = false
      ∧ ran.2.kind? "A.java.fixed" = none ∧ ran.2.read "B.java" = .ok "?".toUTF8 := by
  intro fs parser settings files ran
  have htree : fs.IsTree := isTree_of_flat (by decide)
  have hload : fs.loaded settings.symbols = .ok .empty := loaded_of_kind?_eq_none (by decide +kernel)
  have hfiles : files = ["A.java", "B.java"] := by decide +kernel
  have hA : fs.locate "A.java" = .ok ["A.java"] := by rfl
  have hB : fs.locate "B.java" = .ok ["B.java"] := by rfl
  have hA' : fs.locate "A.java.fixed" = .ok ["A.java.fixed"] := by rfl
  have hB' : fs.locate "B.java.fixed" = .ok ["B.java.fixed"] := by rfl
  have hread : fs.read "B.java" = .ok "?".toUTF8 := by rfl
  have hfixed : fs.isFixed parser "A.java" = true := by decide +kernel
  have hfails : fs.isFixed parser "B.java" = false := by decide +kernel
  have hapart : Apart fs files := by
    rw [hfiles]
    constructor <;> simp [Replace.siblingPath, hA, hB, hA', hB']
  obtain ⟨outcome, -, -, hfailed, hdone, -⟩ :=
    (run_effects parser settings fs htree).2.2 .empty hload rfl hapart
  have hmemA : "A.java" ∈ files := by rw [hfiles]; decide
  have hmemB : "B.java" ∈ files := by rw [hfiles]; decide
  exact ⟨htree, hload, hapart, hfixed, hfails, (hdone "A.java" hmemA hfixed).2.1,
    (hfailed "B.java" hmemB hfails).1 _ hread⟩

end Legible
