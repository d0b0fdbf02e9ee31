import Legible.CommandLine
import Legible.Tree.Listing

/-!
# The program

The disk of the machine as a place for files, and the program itself. The syntax trees of the
sources are read from the standard input; see `Legible.Tree.Listing` for their form.
-/

namespace Legible.Program

def systemCode? : IO.Error → Option Nat
  | .alreadyExists _ code _ => some code.toNat
  | .resourceBusy code _ => some code.toNat
  | .noFileOrDirectory _ code _ => some code.toNat
  | .invalidArgument _ code _ => some code.toNat
  | .inappropriateType _ code _ => some code.toNat
  | .unsatisfiedConstraints code _ => some code.toNat
  | _ => none

/-- The cause that an error of the system stands for. -/
def faultOf (e : IO.Error) : FileFault :=
  match systemCode? e with
  | some 2 => .notFound
  | some 16 => .busy
  | some 17 => .alreadyExists
  | some 20 => .notDirectory
  | some 21 => .isDirectory
  | some 22 => .invalid
  | some 36 => .nameTooLong
  | some 39 => .notEmpty
  | _ => .other (toString e)

/-- Does something with the disk; an error becomes its cause. -/
def attempt {α : Type} (work : IO α) : IO (Except FileFault α) := do
  match ← work.toBaseIO with
  | .ok a => return .ok a
  | .error e => return .error (faultOf e)

def entryAt (path : String) : IO.FS.DirEntry := { root := path, fileName := "" }

/-- What a path leads to, if anything. -/
def kindOf (path : String) : IO (Option FileKind) := do
  match ← attempt ((entryAt path).root.metadata) with
  | .error _ => return none
  | .ok data =>
    match data.type with
    | .dir => return some .directory
    | .file => return some .file
    | _ => return none

/-- The files below an entry, each by the names that lead to it. -/
partial def filesUnder (names : List String) (path : String) : IO (List (List String)) := do
  match ← attempt ((entryAt path).root.readDir) with
  | .error _ => return []
  | .ok entries =>
    let below ← entries.toList.mapM fun e => do
      let path := e.path.toString
      let names := names ++ [e.fileName]
      match ← kindOf path with
      | some .directory => filesUnder names path
      | some .file => return [names]
      | none => return []
    return below.flatten

def perform : Action → IO Unit
  | .create path => IO.FS.writeBinFile path ByteArray.empty
  | .append path bytes => do (← IO.FS.Handle.mk path .append).write bytes
  | .sync path => do (← IO.FS.Handle.mk path .append).flush
  | .remove path => IO.FS.removeFile path
  | .rename source target => IO.FS.rename source target
  | .makeDirectory path => IO.FS.createDir path

instance : Disk IO where
  kind? := kindOf
  read path := attempt (IO.FS.readBinFile path)
  filesBelow := filesUnder []
  act action := attempt (perform action)

/-- All that the standard input holds from here on. -/
partial def readAll (input : IO.FS.Stream) (sofar : String) : IO String := do
  let line ← input.getLine
  if line.isEmpty then return sofar else readAll input (sofar ++ line)

/-- The default path of the dictionary: beside the program. -/
def defaultSymbols : IO String := do
  match (← IO.appPath).parent with
  | some dir => return (dir / "symbols.json").toString
  | none => return "symbols.json"

end Legible.Program

open Legible in
def main (arguments : List String) : IO UInt32 := do
  let started ← IO.monoNanosNow
  let parser := Listing.frontEnd (← Program.readAll (← IO.getStdin) "")
  let exit ← CommandLine.execute parser (← Program.defaultSymbols) arguments
  IO.print exit.stdout
  IO.eprint exit.stderr
  if let some summary := exit.summary then
    IO.eprint (Report.summary .plain summary ((← IO.monoNanosNow) - started))
  return exit.status.toUInt32
