import Legible.Proofs.Workspace.Files
import Legible.Workspace.Replace

/-!
# Replacing files under accidents

A disk on which actions go wrong: any action may be refused, a write may stop halfway, and at any
point everything may stop for good. Whatever happens, what is on such a disk after steps were begun
is what a beginning of the steps leaves, the last of them possibly torn (`Interrupted`). So no text
is lost while a file is replaced (`Interrupted.replace`).
-/

namespace Legible

open FileSystem

variable {old : ByteArray}

/-! ## Disks that hold files -/

/-- What an action leaves that goes wrong. Only a write can be done in part. -/
def FileSystem.torn (fs : FileSystem) (written : Nat) : Action → FileSystem
  | .append path bytes =>
    match fs.append path (bytes.extract 0 written) with
    | .ok fs' => fs'
    | .error _ => fs
  | _ => fs

/-- A disk whose states hold files. An action is done as a whole or fails, and a write that fails
may be done in part. -/
class HoldsFiles (σ : Type) [Disk (StateM σ)] where
  files : σ → FileSystem
  kind?_eq : ∀ path (st : σ), (Disk.kind? path : StateM σ _) st = ((files st).kind? path, st)
  act_cases : ∀ action (st : σ),
    (∃ fault st', (Disk.act action : StateM σ _) st = (.error fault, st')
        ∧ (files st' = files st ∨ ∃ written, files st' = (files st).torn written action))
      ∨ ∃ st', (Disk.act action : StateM σ _) st = (.ok (), st')
        ∧ (files st).perform action = .ok (files st')

instance : HoldsFiles FileSystem where
  files fs := fs
  kind?_eq _ _ := rfl
  act_cases action fs := by
    change (∃ fault fs', fs.act action = (.error fault, fs') ∧ _)
      ∨ ∃ fs', fs.act action = (.ok (), fs') ∧ _
    unfold FileSystem.act
    cases hperform : fs.perform action with
    | ok fs' => exact .inr ⟨fs', rfl, rfl⟩
    | error fault => exact .inl ⟨fault, fs, rfl, .inl rfl⟩

/-- What goes wrong with an action. -/
structure Accident where
  written : Nat
  /-- The answer that the action gets; without one everything stops. -/
  fault : Option FileFault

/-- A file system on which actions go wrong as planned. -/
structure FaultyDisk where
  files : FileSystem
  /-- What goes wrong with the actions to come, one by one; all goes well after the last. -/
  plan : List (Option Accident) := []
  stopped : Bool := false

namespace FaultyDisk

/-- The outcome of an action on a faulty disk. Once all has stopped nothing changes. -/
def act (action : Action) (s : FaultyDisk) : Except FileFault Unit × FaultyDisk :=
  if s.stopped then (.error (.other "stopped"), s)
  else
    match s.plan with
    | some accident :: plan =>
      let files := s.files.torn accident.written action
      match accident.fault with
      | some fault => (.error fault, { files, plan })
      | none => (.error (.other "stopped"), { files, plan, stopped := true })
    | plan =>
      let (answer, files) := s.files.act action
      (answer, { files, plan := plan.tail })

instance : Disk (StateM FaultyDisk) where
  kind? path := fun s => (s.files.kind? path, s)
  read path := fun s => (s.files.read path, s)
  filesBelow path := fun s => (s.files.filesBelow path, s)
  act action := FaultyDisk.act action

instance : HoldsFiles FaultyDisk where
  files := FaultyDisk.files
  kind?_eq _ _ := rfl
  act_cases action s := by
    change (∃ fault s', s.act action = (.error fault, s') ∧ _)
      ∨ ∃ s', s.act action = (.ok (), s') ∧ _
    unfold FaultyDisk.act
    split
    · exact .inl ⟨_, _, rfl, .inl rfl⟩
    · split
      · next accident plan _ =>
          cases accident.fault with
          | some fault => exact .inl ⟨fault, _, rfl, .inr ⟨accident.written, rfl⟩⟩
          | none => exact .inl ⟨_, _, rfl, .inr ⟨accident.written, rfl⟩⟩
      · unfold FileSystem.act
        cases hperform : s.files.perform action with
        | ok files => exact .inr ⟨_, rfl, rfl⟩
        | error fault => exact .inl ⟨fault, _, rfl, .inl rfl⟩

end FaultyDisk

section Programs

variable {σ : Type} [Disk (StateM σ)] [HoldsFiles σ]

def filesAfter {α : Type} (program : ExceptT Error (StateM σ) α) (st : σ) : FileSystem :=
  HoldsFiles.files (program.run st).2

/-! ## Steps that are interrupted -/

/-- The file system `fs'` is what is left of `fs` when steps are begun and interrupted somewhere, or
done to the end. -/
inductive Interrupted : FileSystem → List Step → FileSystem → Prop
  | here (fs : FileSystem) (steps : List Step) : Interrupted fs steps fs
  | torn {fs fs' : FileSystem} {path name : String} {bytes : ByteArray} (rest : List Step)
      (written : Nat) (h : fs.append path (bytes.extract 0 written) = .ok fs') :
      Interrupted fs (⟨.append path bytes, name⟩ :: rest) fs'
  | next {fs fs₁ fs' : FileSystem} {s : Step} {rest : List Step}
      (h : fs.perform s.action = .ok fs₁) (hrest : Interrupted fs₁ rest fs') :
      Interrupted fs (s :: rest) fs'

omit [Disk (StateM σ)] [HoldsFiles σ] in
theorem bind_apply {α β : Type} (x : StateM σ α) (f : α → StateM σ β) (st : σ) :
    (x >>= f) st = f (x st).1 (x st).2 :=
  rfl

omit [Disk (StateM σ)] [HoldsFiles σ] in
/-- What an operation that goes on does, from a state on. -/
theorem run_bind {α β : Type} (x : ExceptT Error (StateM σ) α)
    (f : α → ExceptT Error (StateM σ) β) (st : σ) :
    (x >>= f).run st = match x.run st with
      | (.ok a, st') => (f a).run st'
      | (.error e, st') => (.error e, st') := by
  rw [ExceptT.run_bind, bind_apply]
  rcases x.run st with ⟨_ | _, st'⟩ <;> rfl

omit [Disk (StateM σ)] [HoldsFiles σ] in
theorem run_lift {α : Type} (x : StateM σ α) (st : σ) :
    (liftM x : ExceptT Error (StateM σ) α).run st = (.ok (x st).1, (x st).2) :=
  rfl

omit [HoldsFiles σ] in
theorem run_carryOut_cons (s : Step) (rest : List Step) (st : σ) :
    (carryOut (s :: rest) : ExceptT Error (StateM σ) Unit).run st
      = match (Disk.act s.action : StateM σ (Except FileFault Unit)) st with
        | (.ok (), st') => (carryOut rest : ExceptT Error (StateM σ) Unit).run st'
        | (.error fault, st') => (.error (.file s.path fault), st') := by
  rw [carryOut, run_bind, run_lift]
  rcases (Disk.act s.action : StateM σ (Except FileFault Unit)) st with ⟨_ | ⟨⟨⟩⟩, st'⟩ <;> rfl

theorem torn_interrupted (fs : FileSystem) (s : Step) (rest : List Step) (written : Nat) :
    Interrupted fs (s :: rest) (fs.torn written s.action) := by
  obtain ⟨action, name⟩ := s
  cases action with
  | append path bytes =>
    simp only [FileSystem.torn]
    split
    · next h => exact .torn rest written h
    · exact .here ..
  | _ => exact .here ..

/-- Steps on a disk are interrupted somewhere, or done. -/
theorem interrupted_carryOut (steps : List Step) (st : σ) :
    Interrupted (HoldsFiles.files st) steps (filesAfter (carryOut steps) st) := by
  induction steps generalizing st with
  | nil => exact .here ..
  | cons first rest ih =>
    rw [filesAfter, run_carryOut_cons]
    rcases HoldsFiles.act_cases first.action st with
      ⟨fault, st', hact, hfiles | ⟨written, hfiles⟩⟩ | ⟨st', hact, hperform⟩ <;> rw [hact]
    · exact hfiles ▸ .here ..
    · exact hfiles ▸ torn_interrupted ..
    · exact .next hperform (ih st')

end Programs

/-! ## Files that are written -/

variable {fs fs' : FileSystem} {path name name' : String} {bytes : ByteArray} {rest : List Step}

/-- A file is made and written: it is incomplete, or complete and the other steps go on. All else
is as it was. -/
theorem Interrupted.write (htree : fs.IsTree)
    (h : Interrupted fs (⟨.create path, name⟩ :: ⟨.append path bytes, name'⟩ :: rest) fs') :
    fs' = fs ∨ ∃ spot, fs.locate path = .ok spot ∧ fs.entry? spot ≠ some .directory
      ∧ (SameBut [spot] fs fs'
        ∨ ∃ fs₁, SameBut [spot] fs fs₁ ∧ fs₁.IsTree ∧ entry? fs₁ spot = some (.file bytes)
          ∧ Interrupted fs₁ rest fs') := by
  cases h with
  | here => exact .inl rfl
  | next hcreate hrest =>
    obtain ⟨spot, hspot, hdir, rfl⟩ := create_eq_ok.mp hcreate
    refine .inr ⟨spot, hspot, hdir, ?_⟩
    have hne := ne_nil_of_entry hdir
    have hmade := sameBut_put hdir ByteArray.empty
    -- whatever is appended goes to the file that was made
    have happend : ∀ {more : ByteArray} {fs₁ : FileSystem},
        (fs.put spot (.file ByteArray.empty)).append path more = .ok fs₁ →
        SameBut [spot] fs fs₁ ∧ entry? fs₁ spot = some (.file more) := by
      intro more fs₁ happend
      obtain ⟨spot', old, hspot', hold, rfl⟩ := append_eq_ok.mp happend
      cases hspot.symm.trans (hmade.locate.mp hspot')
      rw [entry?_put _ hne, if_pos rfl] at hold
      cases hold
      refine ⟨?_, ?_⟩
      · refine (hmade.trans (sameBut_put ?_ _)).mono (by simp)
        rw [entry?_put _ hne, if_pos rfl]
        simp
      · rw [entry?_put _ hne, if_pos rfl]
        simp
    cases hrest with
    | here => exact .inl hmade
    | torn _ _ htorn => exact .inl (happend htorn).1
    | next hwrite hrest =>
      obtain ⟨hsame, hentry⟩ := happend hwrite
      refine .inr ⟨_, hsame, hsame.isTree htree fun s hs => ?_, hentry, hrest⟩
      exact ⟨path, List.mem_singleton.mp hs ▸ hspot⟩

theorem isSuffix_fixed : IsSuffix ".fixed" := ⟨by decide, by decide⟩

theorem isSuffix_tmp : IsSuffix ".tmp" := ⟨by decide, by decide⟩

/-- When the old file is deleted the new text is at the other path, or has taken its place. -/
theorem Interrupted.swapped {fs₁ : FileSystem} {fixed : String} {spot sibling : Location}
    (h : Interrupted fs₁ [⟨.rename fixed path, name⟩] fs') (htree : fs.IsTree)
    (hspot : fs.locate path = .ok spot) (hfile : fs.entry? spot = some (.file old))
    (hfixed : fs.locate fixed = .ok sibling) (hnew : fs.entry? sibling = some (.file bytes))
    (hne : sibling ≠ spot) (hremove : fs.remove path = .ok fs₁) :
    fs'.read fixed = .ok bytes ∨ fs'.read path = .ok bytes := by
  obtain ⟨spot', old', hspot', -, rfl⟩ := remove_eq_ok.mp hremove
  cases hspot.symm.trans hspot'
  have hdir : fs.entry? spot ≠ some .directory := by simp [hfile]
  have hgone := sameBut_erase hdir
  have hentry := entry?_erase fs (ne_nil_of_entry hdir)
  have htree₁ := hgone.isTree htree fun s hs => ⟨path, List.mem_singleton.mp hs ▸ hspot⟩
  have hnew₁ : entry? (fs.erase spot) sibling = some (.file bytes) := by
    rw [hentry, if_neg hne, hnew]
  have hfixed₁ := hgone.locate.mpr hfixed
  cases h with
  | here => exact .inl (read_eq_ok.mpr ⟨sibling, hfixed₁, hnew₁⟩)
  | next hrename hrest =>
    obtain ⟨new, hnewSpot, -, -, -, hfree, rfl⟩ := (rename_eq_ok hfixed₁ hnew₁).mp hrename
    cases hspot.symm.trans (hgone.locate.mp hnewSpot)
    rw [if_neg hne] at hrest
    cases hrest
    have hmoved := htree₁.sameBut_move hnew₁ hfree hne
    refine .inr (read_eq_ok.mpr ⟨spot, hmoved.locate.mpr hnewSpot, ?_⟩)
    rw [htree₁.entry?_move hnew₁ (ne_nil_of_entry hfree) hne, if_pos rfl]

/-- While a file is replaced its old text is at its path, or the new one at either path. -/
theorem Interrupted.replace (htree : fs.IsTree) (hold : fs.read path = .ok old)
    (h : Interrupted fs (Replace.replaceSteps path bytes) fs') :
    fs'.read path = .ok old ∨ fs'.read (Replace.siblingPath path) = .ok bytes
      ∨ fs'.read path = .ok bytes := by
  obtain ⟨spot, hspot, hfile⟩ := read_eq_ok.mp hold
  rcases h.write htree with rfl | ⟨sibling, hsibling, hdir, hsame | ⟨fs₁, hsame, htree₁, hnew, hrest⟩⟩
  · exact .inl hold
  all_goals
    obtain ⟨-, -, -, -, -, hne⟩ := locate_append isSuffix_fixed hspot hsibling
    have hspot' : spot ∉ [sibling] := fun hmem => hne (List.mem_singleton.mp hmem).symm
  · exact .inl (read_eq_ok.mpr ⟨spot, hsame.locate.mpr hspot, (hsame.entry _ hspot').trans hfile⟩)
  · have hfile₁ : entry? fs₁ spot = some (.file old) := (hsame.entry _ hspot').trans hfile
    have hspot₁ := hsame.locate.mpr hspot
    have hsibling₁ := hsame.locate.mpr hsibling
    have hread₁ : fs₁.read path = .ok old := read_eq_ok.mpr ⟨spot, hspot₁, hfile₁⟩
    cases hrest with
    | here => exact .inl hread₁
    | next hsync hrest =>
      obtain rfl := sync_eq_ok hsync
      cases hrest with
      | here => exact .inl hread₁
      | next hremove hrest => exact .inr (hrest.swapped htree₁ hspot₁ hfile₁ hsibling₁ hnew hne hremove)

end Legible
