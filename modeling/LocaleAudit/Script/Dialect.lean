/-!
# LocaleAudit.Script.Dialect

The dialects of scripts: JavaScript with JSX, TypeScript, and TypeScript with JSX. A dialect is
chosen by the extension of a file or by the `lang` attribute of a script block.
-/

namespace LocaleAudit.Script

/-- A dialect of scripts. -/
inductive Dialect
  /-- JavaScript with JSX. -/
  | js
  /-- TypeScript. -/
  | ts
  /-- TypeScript with JSX. -/
  | tsx
deriving Repr, DecidableEq, Inhabited

namespace Dialect

/-- The dialect has type annotations. -/
def hasTypes : Dialect → Bool
  | js => false
  | ts | tsx => true

/-- The dialect has JSX elements. -/
def hasJsx : Dialect → Bool
  | ts => false
  | js | tsx => true

/-- The dialect of a file extension, written without its dot. -/
def ofExtension (extension : String) : Dialect :=
  if extension = "ts" || extension = "mts" || extension = "cts" then ts
  else if extension = "tsx" then tsx
  else js

/-- The dialect of a script block with the given `lang` attribute. -/
def ofLangAttribute : Option String → Dialect
  | some "ts" => ts
  | some "tsx" => tsx
  | _ => js

end Dialect

end LocaleAudit.Script
