import ModulePurity.Command.Arguments

/-!
# Help

What the program tells about itself and its commands, in short and at length.
-/

namespace ModulePurity.Command

/-- The version of the program. -/
def versionText : String := "pure-lint 0.1.0\n"

/-- Help on the program. -/
def programHelp : String :=
  "CLI tool for the pure-lint top-level side effect linter

Usage: pure-lint [OPTIONS] <COMMAND>

Commands:
  check       Run lint checks
  list-rules  List available rules
  init        Initialize configuration file
  help        Print this message or the help of the given subcommand(s)

Options:
  -v, --verbose          Enable verbose output
  -c, --config <CONFIG>  Path to configuration file
  -h, --help             Print help
  -V, --version          Print version
"

/-- Short help on the check command. -/
def checkHelp : String :=
  "Run lint checks

Usage: pure-lint check [OPTIONS] [PATH]

Arguments:
  [PATH]  Path to analyze (default: current directory) [default: .]

Options:
  -f, --format <FORMAT>      Output format [default: text] [possible values: text, json, compact, pretty]
  -v, --verbose              Enable verbose output
  -c, --config <CONFIG>      Path to configuration file
      --rules <RULES>        Only run specific rules (comma-separated names or codes)
  -e, --exclude <EXCLUDE>    Exclude patterns (can be specified multiple times)
      --apply-suggestions    Insert the suggested `/* #__PURE__ */` annotations in place
      --fail-on-parse-error  Abort on files with syntax errors instead of skipping them
  -h, --help                 Print help (see more with '--help')
"

/-- Long help on the check command. -/
def checkHelpLong : String :=
  "Run lint checks

Usage: pure-lint check [OPTIONS] [PATH]

Arguments:
  [PATH]
          Path to analyze (default: current directory)
          \n          [default: .]

Options:
  -f, --format <FORMAT>
          Output format

          Possible values:
          - text:    Human-readable text output
          - json:    JSON output
          - compact: One-line-per-violation compact format
          - pretty:  Source snippets rendered with miette
          \n          [default: text]

  -v, --verbose
          Enable verbose output

  -c, --config <CONFIG>
          Path to configuration file

      --rules <RULES>
          Only run specific rules (comma-separated names or codes)

  -e, --exclude <EXCLUDE>
          Exclude patterns (can be specified multiple times)

      --apply-suggestions
          Insert the suggested `/* #__PURE__ */` annotations in place

      --fail-on-parse-error
          Abort on files with syntax errors instead of skipping them

  -h, --help
          Print help (see a summary with '-h')
"

/-- Help on the list of rules. -/
def listRulesHelp : String :=
  "List available rules

Usage: pure-lint list-rules [OPTIONS]

Options:
  -v, --verbose          Enable verbose output
  -c, --config <CONFIG>  Path to configuration file
  -h, --help             Print help
"

/-- Help on first settings. -/
def initHelp : String :=
  "Initialize configuration file

Usage: pure-lint init [OPTIONS]

Options:
      --force            Overwrite existing config
  -v, --verbose          Enable verbose output
  -c, --config <CONFIG>  Path to configuration file
  -h, --help             Print help
"

/-- Help on help. -/
def helpHelp : String :=
  "Print this message or the help of the given subcommand(s)

Usage: pure-lint help [COMMAND]...

Arguments:
  [COMMAND]...  Print help for the subcommand(s)
"

/-- The help text on a topic. -/
def helpText : Topic → (long : Bool) → String
  | .program, _ => programHelp
  | .verb .check, false => checkHelp
  | .verb .check, true => checkHelpLong
  | .verb .listRules, _ => listRulesHelp
  | .verb .init, _ => initHelp
  | .help, _ => helpHelp

end ModulePurity.Command
