import Formula.Parse.Grammar
import Formula.Expr.Canonical
import Formula.Markup.MathML

/-! Reading a text with the trace that its options or `MATHEXPR_TRACE` ask for, and turning a text
into canonical text, markup or MathML. -/
namespace Formula

/-- How to read: the mode, and whether to trace. -/
structure Options where
  mode : Mode := .strict
  trace : Bool := false
deriving Inhabited

/-- What the process environment holds for a reading: the value of `MATHEXPR_TRACE`, if it is
set. -/
structure Environment where
  traceVar : Option ByteArray := none
deriving Inhabited

/-- The environment asks for tracing when `MATHEXPR_TRACE` is set and its first byte is not NUL,
that is, when it is not empty. -/
def Environment.tracing (env : Environment) : Bool :=
  match env.traceVar.bind (·[0]?) with
  | some b => b != 0
  | none => false

/-- A reading traces when its options or its environment ask for it. -/
def Options.tracing (opts : Options) (env : Environment) : Bool := opts.trace || env.tracing

/-- A value together with the trace lines written while computing it. -/
structure Traced (α : Type) where
  value : α
  trace : ByteArray

/-- A trace line: the tool's tag, the message and a line feed. -/
def traceLine (message : ByteArray) : ByteArray :=
  "[mathexpr] ".toUTF8 ++ message ++ "\n".toUTF8

/-- Reads a text. When tracing, the first line quotes the text and the mode, the second gives the
canonical text of the tree or the offset and message of the error. -/
def Expr.read (text : ByteArray) (opts : Options) (env : Environment) : Traced Parsed :=
  let p := Expr.parse text opts.mode
  if opts.tracing env then
    let mode := if opts.mode = .lenient then " (lenient)" else ""
    let opening := traceLine ("parse \"".toUTF8 ++ text ++ ("\"" ++ mode).toUTF8)
    let closing := match p.result with
      | .ok e => "parsed " ++ e.canonical
      | .error d => "parse failed at offset " ++ Ascii.natDecimal d.location.offset ++ ": " ++ d.message
    ⟨p, opening ++ traceLine closing.toUTF8⟩
  else ⟨p, ByteArray.empty⟩

/-- The canonical text of the expression of a text. -/
def canonicalOf (text : ByteArray) (opts : Options) (env : Environment) :
    Traced (Except Diagnostic String) :=
  let r := Expr.read text opts env
  ⟨r.value.result.map Expr.canonical, r.trace⟩

/-- The markup of the expression of a text. When tracing, a last line names the canonical text
that the markup presents. -/
def markupOf (text : ByteArray) (opts : Options) (env : Environment) :
    Traced (Except Diagnostic Markup.Element) :=
  let r := Expr.read text opts env
  match r.value.result with
  | .ok e =>
    let trace := if opts.tracing env then r.trace ++ traceLine ("markup for " ++ e.canonical).toUTF8
      else r.trace
    ⟨.ok (Markup.ofExpr e), trace⟩
  | .error d => ⟨.error d, r.trace⟩

/-- The MathML text of the expression of a text. -/
def mathMLOf (text : ByteArray) (opts : Options) (layout : Markup.Layout) (env : Environment) :
    Traced (Except Diagnostic ByteArray) :=
  let m := markupOf text opts env
  ⟨m.value.map (·.toMathML layout), m.trace⟩

end Formula
