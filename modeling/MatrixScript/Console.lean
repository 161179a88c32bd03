import MatrixScript.Evaluation
import MatrixScript.Location
import MatrixScript.Report
import MatrixScript.WorkingDirectory

/-!
# Running scripts from the console

A script from a file or from the standard input runs as a whole on a new session.  Interactive lines
run one after the other on one session, and each shows its value.  Everything that is read or written
is a value here; reading and writing is left to the caller.
-/

namespace MatrixScript.Console

/-! ## Sources -/

inductive Source
  | file (path : String)
  | standardInput
deriving DecidableEq, Repr

def Source.name : Source → String
  | .file path => path
  | .standardInput => "stdin"

def Source.quoted : Source → String
  | .file path => s!"`{path}`"
  | .standardInput => "stdin"

/-! ## Messages -/

/-- A message for the user.  Its location is that of the first span of a fault. -/
structure Message where
  headline : String
  location : Option String
  details : List String
deriving DecidableEq, Repr

namespace Message

def ofReadError (source : Source) (error : ReadError) : Message where
  headline := s!"error: could not read {source.quoted}: {error.message}"
  location := none
  details := []

def ofFault (source text : String) (fault : Fault) : Message :=
  let report := fault.report
  { headline := fault.headline
    location := fault.spans.head?.map fun span =>
      (Location.ofOffset text span.start).text source
    details :=
      report.labels ++ report.help.toList.map ("help: " ++ ·) ++
        report.note.toList.map ("note: " ++ ·) }

def lines (m : Message) : List String :=
  m.headline :: (m.location.toList.map ("  at " ++ ·) ++ m.details.map ("  " ++ ·))

end Message

/-! ## Whole scripts -/

structure Outcome where
  exitCode : Nat
  output : List UInt8
  messages : List Message
deriving DecidableEq, Repr

/-- Runs a script for what it prints; the value of its last statement is not shown. -/
def runText (source : Source) (text : String) : Outcome :=
  match Eval.script text {} with
  | .ok _ session => ⟨0, session.sink.written, []⟩
  | .error fault session =>
    ⟨1, session.sink.written, [.ofFault source.name text fault]⟩

def runSource (source : Source) (content : Except ReadError ByteArray) : Outcome :=
  match content with
  | .error error => ⟨1, [], [.ofReadError source error]⟩
  | .ok bytes =>
    match String.fromUTF8? bytes with
    | some text => runText source text
    | none => ⟨1, [], [.ofReadError source .invalidText]⟩

/-! ## Interactive lines -/

/-- The characters with the property White_Space. -/
def isBlank (c : Char) : Bool :=
  (0x9 ≤ c.toNat && c.toNat ≤ 0xd) || c.toNat == 0x20 || c.toNat == 0x85 || c.toNat == 0xa0 ||
    c.toNat == 0x1680 || (0x2000 ≤ c.toNat && c.toNat ≤ 0x200a) || c.toNat == 0x2028 ||
    c.toNat == 0x2029 || c.toNat == 0x202f || c.toNat == 0x205f || c.toNat == 0x3000

structure Answer where
  output : List UInt8
  messages : List Message
deriving DecidableEq, Repr

/-- Shows the value of a line after what the line has printed, unless it is `()`. -/
def runLine (line : String) (session : Session) : Answer × Session :=
  if line.toList.all isBlank then (⟨[], []⟩, session)
  else
    match Eval.script line { session with sink := {} } with
    | .ok value session =>
      let shown := if value.isUnit then [] else utf8Bytes (value.text ++ "\n")
      (⟨session.sink.written ++ shown, []⟩, session)
    | .error fault session =>
      (⟨session.sink.written, [.ofFault "input" line fault]⟩, session)

end MatrixScript.Console
