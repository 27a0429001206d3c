import ModulePurity.Command.Check

/-!
# Command line arguments

Arguments are read from left to right. Options before the name of a command are those of the program;
after it, those of the command and of the program. A short option may carry its value and may follow
short switches in one argument; a long one may carry its value after an equals sign. Only the exclude
option may be repeated, and after two hyphens every argument is an operand. The first argument that
is out of place ends the reading, as does a request for help or the version.
-/

namespace ModulePurity.Command

/-- The commands of the program. -/
inductive Verb where
  | check
  | listRules
  | init
deriving DecidableEq, Repr

/-- The command with a name. -/
def Verb.ofName? : String → Option Verb
  | "check" => some check
  | "list-rules" => some listRules
  | "init" => some init
  | _ => none

/-- What help can be asked on. -/
inductive Topic where
  | program
  | verb (v : Verb)
  /-- Help itself. -/
  | help
deriving DecidableEq, Repr

/-- The topic with a name. -/
def Topic.ofName? (name : String) : Option Topic :=
  if name = "help" then some help else (Verb.ofName? name).map verb

/-- The command that is being read, or the program if there is none yet. -/
def Topic.ofVerb : Option Verb → Topic
  | none => program
  | some v => verb v

/-- What a command line asks for. -/
inductive Invocation where
  | check (request : CheckRequest)
  | listRules
  | init (force : Bool)
  /-- Help on a topic, in short or at length. -/
  | help (topic : Topic) (long : Bool)
  | version
  /-- The command line makes no sense. -/
  | misuse
deriving DecidableEq, Repr

/-- The options of all commands. -/
inductive Flag where
  | verbose
  | settings
  | format
  | rules
  | exclude
  | applySuggestions
  | strict
  | force
  | help
  | version
deriving DecidableEq, Repr

namespace Flag

/-- Whether an option takes a value. -/
def takesValue : Flag → Bool
  | settings | format | rules | exclude => true
  | _ => false

/-- Whether an option may be given before or after the command. -/
def isGlobal : Flag → Bool
  | verbose | settings | help => true
  | _ => false

/-- Whether an option belongs to a command, or to the program if there is none yet. -/
def belongsTo (o : Flag) : Option Verb → Bool
  | none => o.isGlobal || o = version
  | some .check =>
    o.isGlobal || [format, rules, exclude, applySuggestions, strict].contains o
  | some .listRules => o.isGlobal
  | some .init => o.isGlobal || o = force

/-- The option with a long name. -/
def ofLong? : String → Option Flag
  | "verbose" => some verbose
  | "config" => some settings
  | "format" => some format
  | "rules" => some rules
  | "exclude" => some exclude
  | "apply-suggestions" => some applySuggestions
  | "fail-on-parse-error" => some strict
  | "force" => some force
  | "help" => some help
  | "version" => some version
  | _ => none

/-- The option with a letter. -/
def ofShort? : Char → Option Flag
  | 'v' => some verbose
  | 'c' => some settings
  | 'f' => some format
  | 'e' => some exclude
  | 'h' => some help
  | 'V' => some version
  | _ => none

end Flag

/-- What has been read so far. -/
structure Reading where
  verb : Option Verb := none
  /-- The options given since the command, or since the beginning. -/
  seen : List Flag := []
  /-- Whether the operand of the command was given. -/
  hasOperand : Bool := false
  request : CheckRequest := {}
  force : Bool := false

namespace Reading

/-- The outcome of reading an argument: an early end, or what has been read. -/
abbrev Step := Except Invocation Reading

/-- Takes in a value, if the option accepts it. -/
def setValue (r : Reading) (o : Flag) (value : String) : Step :=
  match o with
  | .settings =>
    if value.isEmpty then .error .misuse
    else .ok { r with request := { r.request with settingsFile := some ⟨value⟩ } }
  | .format =>
    match Format.ofName? value with
    | none => .error .misuse
    | some format => .ok { r with request := { r.request with format := format } }
  | .rules => .ok { r with request := { r.request with rules := some value } }
  | .exclude =>
    .ok { r with request := { r.request with exclude := r.request.exclude ++ [value] } }
  | _ => .error .misuse

/-- Takes in a switch. -/
def setSwitch (r : Reading) (o : Flag) (long : Bool) : Step :=
  match o with
  | .help => .error (.help (.ofVerb r.verb) long)
  | .version => .error .version
  | .applySuggestions => .ok { r with request := { r.request with applySuggestions := true } }
  | .strict => .ok { r with request := { r.request with strict := true } }
  | .force => .ok { r with force := true }
  | _ => .ok r

/-- Notes that an option was given; only the exclude option may be given again. -/
def note (r : Reading) (o : Flag) : Step :=
  if !o.belongsTo r.verb then .error .misuse
  else if o != .exclude && r.seen.contains o then .error .misuse
  else .ok { r with seen := o :: r.seen }

/-- An option that was read, with the value that its argument carries. -/
structure Given where
  reading : Reading
  /-- The option that still needs a value from the next argument. -/
  waiting : Option Flag

/-- Takes in an option with the value that its argument carries, if any. -/
def give (r : Reading) (o : Flag) (value : Option String) (long : Bool) :
    Except Invocation Given := do
  let r ← r.note o
  if o.takesValue then
    match value with
    | none => return ⟨r, some o⟩
    | some value => return ⟨← r.setValue o value, none⟩
  else
    match value with
    | none => return ⟨← r.setSwitch o long, none⟩
    | some _ => throw .misuse

/-- Reads a long option, without its hyphens. -/
def long (r : Reading) (cs : List Char) : Except Invocation Given :=
  let (name, value) :=
    match Text.cutAt? '=' cs with
    | none => (cs, none)
    | some (name, value) => (name, some (String.ofList value))
  match Flag.ofLong? (String.ofList name) with
  | none => .error .misuse
  | some o => r.give o value true

/-- The value after a short option in the same argument. -/
def attachedValue : List Char → Option String
  | [] => none
  | '=' :: cs => some (String.ofList cs)
  | cs => some (String.ofList cs)

/-- Reads short options, without their hyphen. -/
def shorts (r : Reading) : List Char → Except Invocation Given
  | [] => .ok ⟨r, none⟩
  | c :: cs =>
    match Flag.ofShort? c with
    | none => .error .misuse
    | some o =>
      if o.takesValue then r.give o (attachedValue cs) false
      else
        match r.give o none false with
        | .error e => .error e
        | .ok given => given.reading.shorts cs

/-- Reads an operand: the name of a command first, then what to check. -/
def operand (r : Reading) (arg : String) (plain : Bool) : Step :=
  match r.verb with
  | none =>
    match if plain then none else Verb.ofName? arg with
    | none => .error .misuse
    | some verb => .ok { r with verb := some verb, seen := [] }
  | some .check =>
    if r.hasOperand || arg.isEmpty then .error .misuse
    else .ok { r with hasOperand := true, request := { r.request with path := ⟨arg⟩ } }
  | some _ => .error .misuse

/-- Reads the operands after two hyphens. -/
def operands (r : Reading) : List String → Step
  | [] => .ok r
  | arg :: args =>
    match r.operand arg true with
    | .error e => .error e
    | .ok r => r.operands args

/-- Help on what the arguments of the help command name. -/
def helpOn : List String → Invocation
  | [] => .help .program true
  | [name] =>
    match Topic.ofName? name with
    | none => .misuse
    | some topic => .help topic true
  | _ => .misuse

/-- Whether an argument looks like options. -/
def looksLikeOption (arg : String) : Bool :=
  match arg.toList with
  | '-' :: _ :: _ => true
  | _ => false

/-- Reads all arguments. -/
def run (r : Reading) : List String → Step
  | [] => .ok r
  | arg :: args =>
    let given : Option (Except Invocation Given) :=
      match arg.toList with
      | '-' :: '-' :: cs => some (r.long cs)
      | '-' :: c :: cs => some (r.shorts (c :: cs))
      | _ => none
    if arg = "--" then r.operands args
    else
      match given with
      | none =>
        if r.verb.isNone && arg = "help" then .error (helpOn args)
        else
          match r.operand arg false with
          | .error e => .error e
          | .ok r => r.run args
      | some (.error e) => .error e
      | some (.ok ⟨r, none⟩) => r.run args
      | some (.ok ⟨r, some o⟩) =>
        match args with
        | [] => .error .misuse
        | value :: args =>
          if looksLikeOption value then .error .misuse
          else
            match r.setValue o value with
            | .error e => .error e
            | .ok r => r.run args

end Reading

/-- What the arguments ask for. -/
def Invocation.ofArguments (args : List String) : Invocation :=
  match Reading.run {} args with
  | .error i => i
  | .ok r =>
    match r.verb with
    | none => .misuse
    | some .check => .check r.request
    | some .listRules => .listRules
    | some .init => .init r.force

end ModulePurity.Command
