import PartDepot.Command.Arguments
import PartDepot.World

/-!
# The log

Messages as lines: the level, the target that is worked on, the message.  Messages that are less
important than wanted are left out; so is the target when messages of ordinary importance are.  The
failure that ends a run is told after the log, with all that lies below it.
-/

namespace PartDepot.Command

def levelText : LogLevel → String
  | .error => "ERROR"
  | .warn => "WARN"
  | .info => "INFO"

def Verbosity.shows : Verbosity → LogLevel → Bool
  | _, .error => true
  | .error, _ => false
  | _, .warn => true
  | .warn, .info => false
  | _, .info => true

/-- The target that is worked on, in front of a message. -/
def spanText (v : Verbosity) : Option String → String
  | some target => if v.shows .info then "build\x7btarget=" ++ target ++ "\x7d: " else ""
  | none => ""

/-- The records of a journal, from a point where a target may be worked on. -/
def recordsFrom (v : Verbosity) : Option String → List Event → List (LogLevel × String)
  | _, [] => []
  | span, e :: rest =>
    match e with
    | .began target _ => recordsFrom v (some target) rest
    | .ended _ => recordsFrom v none rest
    | .logged level message =>
      if v.shows level then (level, spanText v span ++ message) :: recordsFrom v span rest
      else recordsFrom v span rest
    | _ => recordsFrom v span rest

def records (v : Verbosity) (journal : List Event) : List (LogLevel × String) :=
  recordsFrom v none journal

def recordText (r : LogLevel × String) : String := levelText r.1 ++ " " ++ r.2

/-- What lies below a failure, a text a line; several are numbered. -/
def causeLines : List String → List String
  | [] => []
  | [cause] => ["    " ++ cause]
  | causes => causes.zipIdx.map fun (cause, n) => s!"    {n}: {cause}"

def failureText (f : Failure) : String :=
  let outermost := "Error: " ++ f.outermost
  match causeLines (f.chain.drop 1) with
  | [] => outermost
  | causes => "\n".intercalate (outermost :: "" :: "Caused by:" :: causes)

end PartDepot.Command
