import ResourceManifest.Ignore.Glob
import ResourceManifest.Path
import ResourceManifest.Yaml.Decode

set_option autoImplicit false

namespace ResourceManifest

instance decidableEqExcept {ε α : Type} [DecidableEq ε] [DecidableEq α] :
    DecidableEq (Except ε α)
  | .error a, .error b => decidable_of_iff (a = b) (by simp)
  | .ok a, .ok b => decidable_of_iff (a = b) (by simp)
  | .error _, .ok _ => isFalse nofun
  | .ok _, .error _ => isFalse nofun

section Except

variable {ε ε' α β : Type} {x : Except ε α}

theorem bind_eq_ok {k : α → Except ε β} {b : β} (h : (x >>= k) = .ok b) :
    ∃ a, x = .ok a ∧ k a = .ok b := by
  cases x with
  | error e => cases h
  | ok a => exact ⟨a, rfl, h⟩

theorem map_eq_ok {f : α → β} {b : β} (h : x.map f = .ok b) : ∃ a, x = .ok a ∧ f a = b := by
  cases x with
  | error e => cases h
  | ok a => exact ⟨a, rfl, Except.ok.inj h⟩

theorem mapError_ok (f : ε → ε') (a : α) : (Except.ok a : Except ε α).mapError f = .ok a := rfl

theorem mapError_eq_ok {f : ε → ε'} {a : α} (h : x.mapError f = .ok a) : x = .ok a := by
  cases x with
  | error e => cases h
  | ok b => rw [Except.ok.inj h]

end Except

inductive FileFault where
  | nulInName | notFound | notDirectory | isDirectory | tooManyLinks | nameTooLong
  | invalidArgument | busy | noSpace
  /-- The operation does not come back: nobody is at the other end of a pipe, or a device has ever
  more bytes. -/
  | endless
  /-- A fault while a file with this path was being made. -/
  | creating (path : Path) (fault : FileFault)
  deriving DecidableEq, Repr

def FileFault.text : FileFault → String
  | .nulInName => "file name contained an unexpected NUL byte"
  | .notFound => "No such file or directory (os error 2)"
  | .notDirectory => "Not a directory (os error 20)"
  | .isDirectory => "Is a directory (os error 21)"
  | .tooManyLinks => "Too many levels of symbolic links (os error 40)"
  | .nameTooLong => "File name too long (os error 36)"
  | .invalidArgument => "Invalid argument (os error 22)"
  | .busy => "Device or resource busy (os error 16)"
  | .noSpace => "No space left on device (os error 28)"
  | .endless => "the file does not come to an end"
  | .creating p f => f.text ++ " at path " ++ p.quoted

inductive WalkFault where
  | file (path : Path) (fault : FileFault)
  /-- A link leads to a directory that it lies in. -/
  | loop (ancestor child : Path)
  /-- The walk does not get past this file, which says what it is to skip. -/
  | endless (file : Path)
  deriving DecidableEq, Repr

def WalkFault.text : WalkFault → String
  | .file p f => "IO error for operation on " ++ p.toString ++ ": " ++ f.text
  | .loop ancestor child =>
    "File system loop found: " ++ child.toString ++ " points to an ancestor " ++
      ancestor.toString
  | .endless p => p.toString ++ ": " ++ FileFault.endless.text

inductive LineProblem where
  | pattern (text : String) (problem : GlobProblem)
  | notText
  deriving DecidableEq, Repr

def LineProblem.text : LineProblem → String
  | .pattern t p => "error parsing glob '" ++ t ++ "': " ++ p.text
  | .notText => "stream did not contain valid UTF-8"

structure LineFault where
  file : Path
  line : Nat
  problem : LineProblem
  deriving DecidableEq, Repr

def LineFault.text (f : LineFault) : String :=
  f.file.toString ++ ": line " ++ f.line.repr ++ ": " ++ f.problem.text

/-- What is wrong with an ignore file: a line, or all its patterns together. -/
inductive RuleFault where
  | line (fault : LineFault)
  | patterns (text : String)
  deriving DecidableEq, Repr

def RuleFault.text : RuleFault → String
  | .line f => f.text
  | .patterns t => t

inductive IgnoreFault where
  | walk (fault : WalkFault)
  | rules (faults : List RuleFault)
  deriving DecidableEq, Repr

def IgnoreFault.text : IgnoreFault → String
  | .walk (.file p f) => p.toString ++ ": " ++ (WalkFault.file p f).text
  | .walk f => f.text
  | .rules fs => String.intercalate "\n" (fs.map RuleFault.text)

inductive ConfigFault where
  | file (fault : FileFault)
  | flaw (flaw : Yaml.Flaw)
  deriving DecidableEq, Repr

def ConfigFault.text : ConfigFault → String
  | .file f => f.text
  | .flaw f => f.text

/-- Why a job, or the reading of its configuration, was given up. -/
inductive Failure where
  | rootNotFound (root : Path)
  | rootNotDirectory (root : Path)
  | walk (root : Path) (fault : WalkFault)
  | ignore (root : Path) (fault : IgnoreFault)
  | io (path : Path) (fault : FileFault)
  | config (path : Path) (fault : ConfigFault)
  | emptyConfig (path : Path)
  deriving DecidableEq, Repr

namespace Failure

def text : Failure → String
  | .rootNotFound p => "Root directory not found: " ++ p.toString
  | .rootNotDirectory p => "Root is not a directory: " ++ p.toString
  | .walk p f => "Failed to walk " ++ p.toString ++ ": " ++ f.text
  | .ignore p f => "Failed to walk " ++ p.toString ++ ": " ++ f.text
  | .io p f => "I/O error at " ++ p.toString ++ ": " ++ f.text
  | .config p f => "Failed to parse config file " ++ p.toString ++ ": " ++ f.text
  | .emptyConfig p => "Config file " ++ p.toString ++ " declares no jobs"

def causes : Failure → List String
  | .walk _ f => match f with
    | .file _ fault => [f.text, fault.text]
    | _ => [f.text]
  | .ignore _ f => [f.text]
  | .io _ f => [f.text]
  | _ => []

def chain (f : Failure) : String := String.intercalate ": " (f.text :: f.causes)

/-- What is told here as a failure is one from which the program does not come back. -/
def isEndless : Failure → Bool
  | .io _ .endless => true
  | .ignore _ (.walk (.endless _)) => true
  | _ => false

end Failure

end ResourceManifest
