import Realizability.Encoding.Error
import Realizability.Format.Fault
import Realizability.Json.Text
import Realizability.Problem.Builder

/-!
# Failures

Everything that can end a check before its verdict, with the one line that reports it.
-/

namespace Realizability

inductive Failure
  | noFile (name : String)
  | unnamedFile
  | malformed (e : Json.TextError)
  | format (e : FormatError)
  | build (e : BuildError)
  | encode (e : EncodeError)
  | unsupported (text kind : String)
  | outside (text : String)
  deriving Repr

def Failure.message : Failure → String
  | noFile name => "[Errno 2] No such file or directory: " ++ Text.quoted name
  | unnamedFile => "expected str, bytes or os.PathLike object, not list"
  | malformed e => e.message
  | format e => e.message
  | build e => e.message
  | encode e => e.message
  | unsupported text kind => unsupportedText text kind
  | outside text => text

end Realizability
