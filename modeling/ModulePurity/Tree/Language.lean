import ModulePurity.Path

/-!
# Source languages

The grammar that a file is parsed with is chosen by its extension.
-/

namespace ModulePurity

/-- A grammar for source files. -/
inductive Language where
  /-- JavaScript, with embedded markup. -/
  | javascript
  | typescript
  /-- TypeScript with embedded markup. -/
  | tsx
deriving DecidableEq, Repr

namespace Language

/-- The name of a language. -/
def name : Language → String
  | javascript => "javascript"
  | typescript => "typescript"
  | tsx => "tsx"

/-- The language with the given name. -/
def ofName? (s : String) : Option Language :=
  [javascript, typescript, tsx].find? fun l => l.name == s

/-- The extensions of source files, with their dots. -/
def extensions : List String :=
  [".js", ".mjs", ".cjs", ".jsx", ".ts", ".mts", ".cts", ".tsx"]

/-- The language of an extension; dots at its beginning are dropped. -/
def ofExtension? (extension : List Char) : Option Language :=
  match String.ofList (extension.dropWhile (· == '.')) with
  | "js" | "mjs" | "cjs" | "jsx" => some javascript
  | "ts" | "mts" | "cts" => some typescript
  | "tsx" => some tsx
  | _ => none

/-- The language of a file by the extension of its path. -/
def ofPath? (p : Path) : Option Language :=
  p.extension?.bind ofExtension?

end Language

end ModulePurity
