import Hyperlisting.Text

/-!
Reasons for which the file system refuses a step.
-/

namespace Hyperlisting

inductive SystemError where
  | notFound
  | busy
  | alreadyExists
  | notDirectory
  | isDirectory
  | noSpace
  | nameTooLong
  | tooManyLinks
  /-- A name with a zero character, which no file can have. -/
  | zeroInName
  /-- File content that is no UTF-8 text. -/
  | notText
deriving DecidableEq

/-- The system's wording and number; the last two faults are found without asking it. -/
def SystemError.message : SystemError → Text
  | notFound => "No such file or directory (os error 2)".toList
  | busy => "Device or resource busy (os error 16)".toList
  | alreadyExists => "File exists (os error 17)".toList
  | notDirectory => "Not a directory (os error 20)".toList
  | isDirectory => "Is a directory (os error 21)".toList
  | noSpace => "No space left on device (os error 28)".toList
  | nameTooLong => "File name too long (os error 36)".toList
  | tooManyLinks => "Too many levels of symbolic links (os error 40)".toList
  | zeroInName => "file name contained an unexpected NUL byte".toList
  | notText => "stream did not contain valid UTF-8".toList

end Hyperlisting
