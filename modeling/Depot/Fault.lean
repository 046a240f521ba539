import Depot.Calendar
import Depot.Settings.Problem
import Depot.Text.Quoted

/-!
What can go wrong, by cause. A cause belongs to one kind, and kinds of this
library's own have a short code. The wording of each cause is `Fault.message`.
-/
namespace Depot

inductive Fault
  /-- Any code and wording chosen by a caller. -/
  | other (code wording : String)
  /-- A missing path or channel; an absent or empty wording means the usual one. -/
  | notFound (target : String) (wording : Option String)
  | preconditionFailed (wording : String)
  | conflict (wording : String)
  | underFile (path file : String)
  | isFolder (path : String)
  | unsupported (operation backend : String)
  | transient (wording : String)
  | capacity (wording : String)
  | overfull (additional held limit : Int)
  | invalidArgument (wording : String)
  | separatorInPrefix (given : String)
  | negativeLimit (given : Int)
  | pageTooSmall (given : Int)
  | tooFewThreads (given : Int)
  | delayNotPositive (given : String)
  | delaysOutOfOrder (largest smallest : String)
  | factorTooSmall (given : String)
  | batchTooSmall (given : Int)
  | countTooSmall (given : Int)
  | emptyChannelName
  | handlerMissing
  | invalidPath (path : Option String) (reason : String)
  | pumpRunning (wording : String)
  /-- Values refused at construction. -/
  | badValue (wording : String)
  | negativeThreshold (given : Int)
  | unknownLevel (given : String)
  | unknownPersistence (given : String)
  | unknownStorage (given : String)
  | unknownMessaging (given : String)
  | nulInName
  | nulInCodec
  /-- A code beyond the last character. -/
  | codeOutOfRange
  /-- An item of a list of names with their values that has another length. -/
  | notPair (place length : Nat)
  /-- A number without a digit in its base. -/
  | noDigits (base : Nat)
  | tooManyDigits (count : Nat)
  | misfit (m : Calendar.Misfit)
  | innerChannelMissing
  | storageMissing
  /-- A failure with nothing but a wording. -/
  | failure (wording : String)
  | missingFile
  | notDirectory
  | directoryInTheWay
  | fileInTheWay
  | fileSystem
  | undecodable
  | unencodable
  | unknownCodec
  | outOfRange
  | noSuchAttribute
  | wrongType
  | badMarkup
  /-- A text whose parts are nested too deeply. -/
  | tooNested
  /-- A section of a settings document with everything that was refused in it. -/
  | invalidSettings (part : String) (problems : List Settings.Problem)
  /-- A name that was looked up and is not there. -/
  | missingKey (key : String)
  deriving DecidableEq, Repr

namespace Fault

inductive Kind
  | other
  | notFound
  | preconditionFailed
  | conflict
  | unsupported
  | transient
  | capacity
  | invalidArgument
  | invalidPath
  | pumpRunning
  | badValue
  | failure
  | missingFile
  | notDirectory
  | directoryInTheWay
  | fileInTheWay
  | fileSystem
  | undecodable
  | unencodable
  | unknownCodec
  | outOfRange
  | noSuchAttribute
  | wrongType
  | badMarkup
  | tooNested
  | invalidSettings
  | missingKey
  deriving DecidableEq, Repr

def kind : Fault → Kind
  | other .. => .other
  | notFound .. => .notFound
  | preconditionFailed _ => .preconditionFailed
  | conflict _ | underFile .. | isFolder _ => .conflict
  | unsupported .. => .unsupported
  | transient _ => .transient
  | capacity _ | overfull .. => .capacity
  | invalidArgument _ | separatorInPrefix _ | negativeLimit _ | pageTooSmall _ | tooFewThreads _
  | delayNotPositive _ | delaysOutOfOrder .. | factorTooSmall _ | batchTooSmall _
  | countTooSmall _ | emptyChannelName | handlerMissing => .invalidArgument
  | invalidPath .. => .invalidPath
  | pumpRunning _ => .pumpRunning
  | badValue _ | negativeThreshold _ | unknownLevel _ | unknownPersistence _ | unknownStorage _
  | unknownMessaging _ | nulInName | nulInCodec | codeOutOfRange
  | notPair .. | noDigits _ | tooManyDigits _ | misfit _ | innerChannelMissing
  | storageMissing => .badValue
  | failure _ => .failure
  | missingFile => .missingFile
  | notDirectory => .notDirectory
  | directoryInTheWay => .directoryInTheWay
  | fileInTheWay => .fileInTheWay
  | fileSystem => .fileSystem
  | undecodable => .undecodable
  | unencodable => .unencodable
  | unknownCodec => .unknownCodec
  | outOfRange => .outOfRange
  | noSuchAttribute => .noSuchAttribute
  | wrongType => .wrongType
  | badMarkup => .badMarkup
  | tooNested => .tooNested
  | invalidSettings .. => .invalidSettings
  | missingKey _ => .missingKey

/-- The wider kinds that one of this library's own belongs to, nearest first. -/
def Kind.wider : Kind → List Kind
  | .invalidPath => [.invalidArgument, .other, .badValue]
  | .invalidArgument => [.other, .badValue]
  | .other => []
  | _ => [.other]

def Kind.code? : Kind → Option String
  | .notFound => some "NotFound"
  | .preconditionFailed => some "PreconditionFailed"
  | .conflict => some "Conflict"
  | .unsupported => some "Unsupported"
  | .transient => some "TransientFault"
  | .capacity => some "CapacityExceeded"
  | .invalidArgument => some "InvalidArgument"
  | .invalidPath => some "InvalidPath"
  | .pumpRunning => some "PumpAlreadyRunning"
  | _ => none

def Kind.isOwn (k : Kind) : Bool := k = .other || k.code?.isSome

def code? : Fault → Option String
  | other code _ => some code
  | f => f.kind.code?

def Kind.usualWording : Kind → String
  | .preconditionFailed => "A precondition did not hold."
  | .conflict => "The operation conflicts with the current state."
  | .transient => "The backend is temporarily unavailable."
  | .invalidArgument => "Invalid Argument"
  | .pumpRunning => "A message pump is already running on this receiver."
  | _ => ""

/-- The fault of a kind that has nothing but its wording; any other kind makes it
a plain failure. -/
def Kind.worded (k : Kind) (wording : String) : Fault :=
  match k with
  | .preconditionFailed => .preconditionFailed wording
  | .conflict => .conflict wording
  | .transient => .transient wording
  | .capacity => .capacity wording
  | .invalidArgument => .invalidArgument wording
  | .pumpRunning => .pumpRunning wording
  | .badValue => .badValue wording
  | .missingKey => .missingKey wording
  | _ => .failure wording

def message : Fault → String
  | other _ wording => wording
  | notFound target wording =>
    match wording with
    | none | some "" => "The specified resource does not exist: " ++ Text.quoted target
    | some w => w
  | preconditionFailed wording | conflict wording | transient wording | capacity wording
  | invalidArgument wording | pumpRunning wording | badValue wording | failure wording => wording
  | underFile path file =>
    "Cannot write " ++ Text.quoted path ++ ": " ++ Text.quoted file ++ " is a file"
  | isFolder path => "Cannot write " ++ Text.quoted path ++ ": it is a folder"
  | unsupported operation backend =>
    "Operation " ++ Text.quoted operation ++ " is not supported"
      ++ (if backend = "" then "" else " by " ++ backend) ++ "."
  | overfull additional held limit =>
    "Cannot store " ++ toString additional ++ " bytes: would exceed max_size_bytes ("
      ++ toString held ++ " + " ++ toString additional ++ " > " ++ toString limit ++ ")"
  | separatorInPrefix given => "file prefix cannot contain '/': " ++ Text.quoted given
  | negativeLimit given => "max_results must be >= 0, got " ++ toString given
  | pageTooSmall given => "page_size must be >= 1, got " ++ toString given
  | tooFewThreads given => "num_recursion_threads must be >= 1, got " ++ toString given
  | delayNotPositive given => "min_delay must be > 0, got " ++ given
  | delaysOutOfOrder largest smallest =>
    "max_delay (" ++ largest ++ ") must be >= min_delay (" ++ smallest ++ ")"
  | factorTooSmall given => "factor must be >= 1, got " ++ given
  | batchTooSmall given => "max_batch_size must be >= 1, got " ++ toString given
  | countTooSmall given => "count must be >= 1, got " ++ toString given
  | emptyChannelName => "channel name must not be empty"
  | handlerMissing => "handler is required"
  | invalidPath path reason => "Invalid path " ++ Text.quotedOrNone path ++ ": " ++ reason
  | negativeThreshold given => "threshold must be >= 0, got " ++ toString given
  | unknownLevel given => "Unknown level: " ++ Text.quoted given
  | unknownPersistence given => "Unknown persistence mode: " ++ given
  | unknownStorage given => "Unknown storage backend: " ++ given
  | unknownMessaging given => "Unknown messaging backend: " ++ given
  | nulInName => "embedded null byte"
  | nulInCodec => "embedded null character"
  | codeOutOfRange => "chr() arg not in range(0x110000)"
  | notPair place length => "dictionary update sequence element #" ++ toString place
      ++ " has length " ++ toString length ++ "; 2 is required"
  | noDigits base => "invalid literal for int() with base " ++ toString base ++ ": ''"
  | tooManyDigits count =>
    "Exceeds the limit (4300 digits) for integer string conversion: value has " ++ toString count
      ++ " digits; use sys.set_int_max_str_digits() to increase the limit"
  | misfit m => m.message
  | innerChannelMissing => "inner channel backend is required"
  | storageMissing => "offload storage is required"
  | missingFile | notDirectory | directoryInTheWay | fileInTheWay | fileSystem | undecodable
  | unencodable
  | unknownCodec | outOfRange | noSuchAttribute | wrongType | badMarkup | tooNested
  | invalidSettings .. => ""
  | missingKey key => Text.quoted key

def withoutPath : Fault → Fault
  | notFound "" none =>
    notFound "" (some ("The specified resource does not exist: " ++ Text.quotedOrNone none))
  | isFolder "" => conflict ("Cannot write " ++ Text.quotedOrNone none ++ ": it is a folder")
  | f => f

def isMissing (f : Fault) : Bool := f.kind = .notFound || f.kind = .missingFile

end Fault

end Depot
