import PartDepot.Settings

/-!
# Command line arguments

Arguments are read from left to right: options may stand anywhere, those that every command has also
in front of it.  An option may stand once for each command word; the list of builds may be given in
several pieces.  What follows `--` is no option.
-/

namespace PartDepot.Command

/-- The least important messages that are wanted. -/
inductive Verbosity where
  | error
  | warn
  | info
  | debug
  | trace
deriving DecidableEq

def Verbosity.parse : String → Option Verbosity
  | "error" => some .error
  | "warn" => some .warn
  | "info" => some .info
  | "debug" => some .debug
  | "trace" => some .trace
  | _ => none

/-- What is to be done. -/
inductive Task where
  | fetchParts (entry : Option String) (builds : List String) (refresh : Bool)
  | build (entry : Option String) (builds : List String)
  | listCache (asJson : Bool)
  | clearCache
deriving DecidableEq

structure Invocation where
  task : Task
  verbosity : Verbosity
  /-- The user asks for offline mode. -/
  offline : Bool
deriving DecidableEq

/-- What a list of arguments amounts to. -/
inductive Request where
  | run (invocation : Invocation)
  | version
  | help
  | rejected
deriving DecidableEq

/-- The command words: none yet, the word that needs another one, and those that name a task. -/
inductive Word where
  | top
  | cache
  | fetchParts
  | build
  | list
  | clear
deriving DecidableEq

namespace Word

def next? : Word → String → Option Word
  | .top, "fetch-parts" => some .fetchParts
  | .top, "build" => some .build
  | .top, "cache" => some .cache
  | .cache, "list" => some .list
  | .cache, "clear" => some .clear
  | _, _ => none

def isOpen : Word → Bool
  | .top | .cache => true
  | _ => false

def takesBuilds : Word → Bool
  | .fetchParts | .build => true
  | _ => false

end Word

/-- What the options behind one word say. -/
structure Options where
  verbosity : Option Verbosity := none
  offline : Bool := false
  builds : Option (List String) := none
  refresh : Bool := false
  asJson : Bool := false
  entry : Option String := none

/-- The options behind an earlier word, as far as later ones leave them open. -/
structure Outer where
  verbosity : Option Verbosity := none
  offline : Bool := false

/-- What the options say together with those behind earlier words. -/
def Options.outer (o : Options) (before : Outer) : Outer :=
  ⟨o.verbosity.or before.verbosity, o.offline || before.offline⟩

def splitBuilds (s : String) : List String :=
  let rec go : List Char → List (List Char)
    | [] => [[]]
    | c :: rest =>
      match go rest with
      | [] => [[c]]
      | p :: ps => if c = ',' then [] :: p :: ps else (c :: p) :: ps
  (go s.toList).map String.ofList

def Options.addBuilds (o : Options) (value : String) : Options :=
  { o with builds := some (o.builds.getD [] ++ splitBuilds value) }

def buildVariable : String := "PARTFETCH_BUILD"

def finish (env : Environment) (w : Word) (o : Options) (before : Outer) : Request :=
  let builds := match o.builds with
    | some bs => bs
    | none => ((env.lookup buildVariable).map splitBuilds).getD []
  let all := o.outer before
  let run (t : Task) : Request := .run ⟨t, all.verbosity.getD .info, all.offline⟩
  match w with
  | .top | .cache => .rejected
  | .fetchParts => run (.fetchParts o.entry builds o.refresh)
  | .build => run (.build o.entry builds)
  | .list => run (.listCache o.asJson)
  | .clear => run .clearCache

/-- An argument as an option: its name, and its value if that is attached. -/
inductive Shape where
  | plain
  | long (name : String) (value : Option String)
  | short (letter : Char) (value : Option String)

/-- How an argument looks. A lone dash is no option. -/
def shape (arg : String) : Shape :=
  match arg.toList with
  | '-' :: '-' :: rest =>
    let name := String.ofList (rest.takeWhile (· != '='))
    match rest.dropWhile (· != '=') with
    | [] => .long name none
    | _ :: value => .long name (some (String.ofList value))
  | '-' :: c :: '=' :: value => .short c (some (String.ofList value))
  | '-' :: c :: [] => .short c none
  | '-' :: c :: value => .short c (some (String.ofList value))
  | _ => .plain

/-- Whether an argument can be the value of an option before it. -/
def isValue (arg : String) : Bool :=
  match shape arg with
  | .plain => true
  | _ => false

/-- What an option does. -/
inductive Effect where
  | set (options : Options)
  | take (use : String → Option Options)
  | stop (request : Request)

/-- What an option of a word does; without a result there is no such option, or it stands twice. -/
def effect (w : Word) (o : Options) : String → Option Effect
  | "offline" => if o.offline then none else some (.set { o with offline := true })
  | "log-level" =>
    if o.verbosity.isSome then none
    else some (.take fun v => (Verbosity.parse v).map fun v => { o with verbosity := some v })
  | "build" => if w.takesBuilds then some (.take fun v => some (o.addBuilds v)) else none
  | "refresh" =>
    if w = .fetchParts && !o.refresh then some (.set { o with refresh := true }) else none
  | "json" => if w = .list && !o.asJson then some (.set { o with asJson := true }) else none
  | "help" => some (.stop .help)
  | "version" => if w = .top then some (.stop .version) else none
  | _ => none

def longName : Char → String
  | 'b' => "build"
  | 'h' => "help"
  | 'V' => "version"
  | _ => ""

/-- The options with an entry, which may be given once. -/
def Options.setEntry (w : Word) (o : Options) (arg : String) : Option Options :=
  if w.takesBuilds && o.entry.isNone then some { o with entry := some arg } else none

/-- The request for help on a command word that others lead to. -/
def readHelp (w : Word) : List String → Request
  | [] => .help
  | arg :: rest =>
    match w.next? arg with
    | some next => readHelp next rest
    | none => if w.isOpen && arg = "help" && rest.isEmpty then .help else .rejected

def readPlain (env : Environment) (w : Word) (o : Options) (before : Outer) :
    List String → Request
  | [] => finish env w o before
  | arg :: rest =>
    match o.setEntry w arg with
    | some o => readPlain env w o before rest
    | none => .rejected

def read (env : Environment) (w : Word) (o : Options) (before : Outer) : List String → Request
  | [] => finish env w o before
  | "--" :: rest => readPlain env w o before rest
  | arg :: rest =>
    let option (name : String) (value : Option String) : Request :=
      match effect w o name, value, rest with
      | some (.stop r), none, _ => r
      | some (.set o), none, rest => read env w o before rest
      | some (.take use), some v, rest =>
        match use v with
        | some o => read env w o before rest
        | none => .rejected
      | some (.take use), none, v :: rest =>
        if !isValue v then .rejected
        else match use v with
          | some o => read env w o before rest
          | none => .rejected
      | _, _, _ => .rejected
    match shape arg with
    | .long name value => option name value
    | .short letter value =>
      match effect w o (longName letter) with
      | some (.stop r) => r
      | _ => option (longName letter) value
    | .plain =>
      if w.isOpen then
        match w.next? arg with
        | some next => read env next {} (o.outer before) rest
        | none => if arg = "help" then readHelp w rest else .rejected
      else match o.setEntry w arg with
        | some o => read env w o before rest
        | none => .rejected

def parse (env : Environment) (args : List String) : Request := read env .top {} {} args

end PartDepot.Command
