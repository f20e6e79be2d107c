import Bunzip.Cli.Options

/-!
# Help texts

What the program says of itself, and why it refuses its arguments.
-/

namespace Bunzip.Cli

/-- What the program does and the options it takes. -/
def usage : String :=
  "\n".intercalate [
    "Decodes bzip2 streams, from standard input to standard output if no file is named.",
    "",
    "bunzip [options] [files]",
    "",
    "  -d, --decompress      decode; this is what is done in any case",
    "  -c, --stdout          write to standard output",
    "  -t, --test            only test whether the files can be decoded",
    "  -k, --keep            keep the input files",
    "  -f, --force           replace output files that exist",
    "  -v, --verbose         report more; may be repeated",
    "  -q, --quiet           report nothing",
    "      --chunk-size N    decode N bytes at a time",
    "  -h, --help            print this text",
    "  -V, --version         print the version"]

def version : String := "bunzip 0.1.0"

/-- What a refusal tells the user. -/
def Refusal.message : Refusal → String
  | .unknownArgument => "unknown option"
  | .emptyValue => "empty file name, or no value for the chunk size"
  | .invalidValue => "the chunk size is not a number"
  | .superfluousValue => "a value for an option that takes none"
  | .repeatedFlag => "option given twice"
  | .helpWanted => usage
  | .versionWanted => version

/-- Whether a refusal gives what was asked for. -/
def Refusal.isAnswer : Refusal → Bool
  | .helpWanted | .versionWanted => true
  | _ => false

end Bunzip.Cli
