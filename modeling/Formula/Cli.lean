import Formula.Pipeline
import Formula.Expr.Dump

/-! The command line: options, then operands joined by single spaces or else standard input; the
status is `0` on success, `1` when reading fails and `2` for a command line not understood. -/
namespace Formula.Cli

/-- What to print for the expression. -/
inductive Emit where
  | canonical
  | mathml
  | ast
deriving DecidableEq, Inhabited

/-- The output format named on the command line. -/
def Emit.ofName? (name : ByteArray) : Option Emit :=
  if name == "string".toUTF8 then some .canonical
  else if name == "mathml".toUTF8 then some .mathml
  else if name == "ast".toUTF8 then some .ast
  else none

/-- Everything the command line sets for a run. -/
structure Settings where
  options : Options := {}
  layout : Markup.Layout := {}
  emit : Emit := .canonical
  expression : ByteArray := ByteArray.empty
  fromStdin : Bool := false
deriving Inhabited

/-- What a command line asks for. -/
inductive Request where
  | help
  | version
  | refuse (message : ByteArray)
  | run (settings : Settings)
deriving Inhabited

/-- The state of reading the arguments. -/
structure ArgState where
  settings : Settings := {}
  optionsDone : Bool := false
  sawOperand : Bool := false
  sawDash : Bool := false
deriving Inhabited

/-- Adds an operand; a lone `-` before `--` asks for standard input instead. -/
def ArgState.operand (st : ArgState) (a : ByteArray) : ArgState :=
  if a == "-".toUTF8 && !st.optionsDone then { st with sawDash := true }
  else
    let e := st.settings.expression
    let e := if st.sawOperand then e.push 32 else e
    { st with settings := { st.settings with expression := e ++ a }, sawOperand := true }

/-- Reads the arguments. An argument of two bytes or more that begins with `-` is an option
until `--`; one that is no known option is an operand, unless it begins with `--` and a letter. -/
def Request.ofArgs (args : List ByteArray) : Request := go args {}
where
  /-- Reads the remaining arguments. -/
  go : List ByteArray → ArgState → Request
    | [], st =>
      if st.sawDash && st.sawOperand then
        .refuse "cannot combine '-' with expression operands".toUTF8
      else .run { st.settings with fromStdin := !st.sawOperand }
    | a :: rest, st =>
      if !st.optionsDone && 1 < a.size && a[0]? == some 45 then
        let s := st.settings
        if a == "--".toUTF8 then go rest { st with optionsDone := true }
        else if a == "--help".toUTF8 || a == "-h".toUTF8 then .help
        else if a == "--version".toUTF8 then .version
        else if a == "--lenient".toUTF8 then
          go rest { st with settings := { s with options := { s.options with mode := .lenient } } }
        else if a == "--trace".toUTF8 then
          go rest { st with settings := { s with options := { s.options with trace := true } } }
        else if a == "--no-wrap".toUTF8 then
          go rest { st with settings := { s with layout := { s.layout with wrap := false } } }
        else if a == "--pretty".toUTF8 then
          go rest { st with settings := { s with layout := { s.layout with pretty := true } } }
        else if a.extract 0 7 == "--emit=".toUTF8 then
          let name := a.extract 7 a.size
          match Emit.ofName? name with
          | some k => go rest { st with settings := { s with emit := k } }
          | none =>
            .refuse ("unknown emit kind '".toUTF8 ++ name ++
              "' (expected string, mathml or ast)".toUTF8)
        else if a.extract 0 2 == "--".toUTF8 && (a[2]?.map Ascii.isLetter).getD false then
          .refuse ("unknown option '".toUTF8 ++ a ++ "'".toUTF8)
        else go rest (st.operand a)
      else go rest (st.operand a)

/-- Whether the request reads standard input. -/
def Request.readsStdin : Request → Bool
  | .run s => s.fromStdin
  | _ => false

/-- The version line. -/
def versionText : String := "mathexpr v0.1.0\n"

/-- The usage text. -/
def usageText : String :=
  versionText ++
  "Usage: mathexpr [options] <expression>...\n" ++
  "       mathexpr [options] -            (read the expression from stdin)\n" ++
  "\nOptions:\n" ++
  "  --emit=string|mathml|ast  Output format (default: string)\n" ++
  "  --lenient                 Tolerate missing ')' or ']' and trailing text\n" ++
  "  --trace                   Trace parsing to stderr (also MATHEXPR_TRACE=1)\n" ++
  "  --no-wrap                 Omit the <math> root element\n" ++
  "  --pretty                  Indent MathML output\n" ++
  "  --version                 Print version and exit\n" ++
  "  --help                    Print this message and exit\n" ++
  "\nOperands are joined with spaces.  Use -- before an expression that\n" ++
  "starts with '--'.\n"

/-- What a run leaves: its exit status and what it wrote to standard output and error. -/
structure Exit where
  status : UInt32
  stdout : ByteArray
  stderr : ByteArray
deriving Inhabited

/-- Drops one final line feed, then one final carriage return. -/
def stripLineEnd (text : ByteArray) : ByteArray :=
  let t := if 0 < text.size && text[text.size - 1]? == some 10 then text.extract 0 (text.size - 1)
    else text
  if 0 < t.size && t[t.size - 1]? == some 13 then t.extract 0 (t.size - 1) else t

/-- Reads the expression and prints it as the settings ask. -/
def Settings.run (s : Settings) (stdin : ByteArray) (env : Environment) : Exit :=
  let (text, source) :=
    if s.fromStdin then (stripLineEnd stdin, "<stdin>") else (s.expression, "<expr>")
  let r := Expr.read text s.options env
  let stderr := r.trace ++ (Diagnostic.renderAll r.value.diagnostics source).toUTF8
  match r.value.result with
  | .error _ => ⟨1, ByteArray.empty, stderr⟩
  | .ok e =>
    let stdout := match s.emit with
      | .canonical => (e.canonical ++ "\n").toUTF8
      | .mathml =>
        let m := (Markup.ofExpr e).toMathML s.layout
        if s.layout.pretty then m else m.push 10
      | .ast => e.dump.toUTF8
    ⟨0, stdout, stderr⟩

/-- Carries out a request, given what standard input and the environment hold. -/
def Request.exit (r : Request) (stdin : ByteArray) (env : Environment) : Exit :=
  match r with
  | .help => ⟨0, usageText.toUTF8, ByteArray.empty⟩
  | .version => ⟨0, versionText.toUTF8, ByteArray.empty⟩
  | .refuse message =>
    ⟨2, ByteArray.empty, "mathexpr: ".toUTF8 ++ message ++ "\n".toUTF8 ++ usageText.toUTF8⟩
  | .run s => s.run stdin env

end Formula.Cli
