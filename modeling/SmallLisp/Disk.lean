/-!
# Files

Evaluation sees files through one question: what does reading the file of a path give? A disk is
the answers that are known, and the wording of a failure is that of the operating system.
-/

namespace SmallLisp

/-- Why a path leads to no text. -/
inductive FileFault where
  | notFound
  | notDirectory
  | isDirectory
  | nameTooLong
  | nulInPath
  | notText
  | other (message : String)
  deriving DecidableEq, Repr

def FileFault.message : FileFault → String
  | notFound => "No such file or directory (os error 2)"
  | notDirectory => "Not a directory (os error 20)"
  | isDirectory => "Is a directory (os error 21)"
  | nameTooLong => "File name too long (os error 36)"
  | nulInPath => "file name contained an unexpected NUL byte"
  | notText => "stream did not contain valid UTF-8"
  | other message => message

/-- What reading the file of a path gives, `none` for a path that nothing is known of. -/
structure Disk where
  read? : String → Option (Except FileFault (List UInt8))

def Disk.empty : Disk := ⟨fun _ => some (.error .notFound)⟩

/-- The text that bytes encode in UTF-8. -/
def decodeText? (bytes : List UInt8) : Option String := String.fromUTF8? ⟨bytes.toArray⟩

end SmallLisp
