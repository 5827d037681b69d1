import Formula.Cli
import Mathlib

/-! The command line as rules on the list of arguments rather than a loop
(`Request.ofArgs_eq_ofKinds`), and what a run prints and returns for every one (`exit_ofArgs`). -/

namespace Formula.Cli

/-- Byte strings are compared byte by byte. -/
scoped instance instLawfulBEqByteArray : LawfulBEq ByteArray where
  rfl := @fun a => beq_self_eq_true a.data
  eq_of_beq := @fun a b h => ByteArray.ext (eq_of_beq (show (a.data == b.data) = true from h))

/-! ### One argument at a time -/

/-- How an argument before `--` is read. -/
inductive Arg where
  | help
  | version
  | refuse (message : ByteArray)
  | lenient
  | trace
  | noWrap
  | pretty
  | emit (kind : Emit)
  | stdin
  | operand
deriving DecidableEq

/-- How an argument of two bytes or more that starts with `-` is read. -/
def Arg.ofOption (a : ByteArray) : Arg :=
  if a = "--help".toUTF8 ∨ a = "-h".toUTF8 then .help
  else if a = "--version".toUTF8 then .version
  else if a = "--lenient".toUTF8 then .lenient
  else if a = "--trace".toUTF8 then .trace
  else if a = "--no-wrap".toUTF8 then .noWrap
  else if a = "--pretty".toUTF8 then .pretty
  else if a.extract 0 7 = "--emit=".toUTF8 then
    match Emit.ofName? (a.extract 7 a.size) with
    | some k => .emit k
    | none =>
      .refuse ("unknown emit kind '".toUTF8 ++ a.extract 7 a.size ++
        "' (expected string, mathml or ast)".toUTF8)
  else if a.extract 0 2 = "--".toUTF8 ∧ (a[2]?.map Ascii.isLetter).getD false = true then
    .refuse ("unknown option '".toUTF8 ++ a ++ "'".toUTF8)
  else .operand

/-- How an argument before `--` is read: as an option when it has two bytes or more and starts
with `-`, a lone `-` as standard input, anything else as an operand. -/
def Arg.of (a : ByteArray) : Arg :=
  if 1 < a.size ∧ a[0]? = some 45 then Arg.ofOption a
  else if a = "-".toUTF8 then .stdin
  else .operand

/-- The arguments where options are read: those before the first `--`. -/
def optionArgs (args : List ByteArray) : List ByteArray := args.takeWhile (· != "--".toUTF8)

/-- The arguments after the first `--`, every one of them an operand. -/
def trailingArgs (args : List ByteArray) : List ByteArray :=
  (args.dropWhile (· != "--".toUTF8)).drop 1

/-- The operands: the arguments before `--` that read as operands, then all after it. -/
def operands (args : List ByteArray) : List ByteArray :=
  (optionArgs args).filter (Arg.of · = .operand) ++ trailingArgs args

/-- The expression a run of the settings reads: its own, or standard input without its final
line end. -/
def Settings.input (s : Settings) (stdin : ByteArray) : ByteArray :=
  if s.fromStdin then stripLineEnd stdin else s.expression

/-- The name that diagnostics give the expression of a run. -/
def Settings.source (s : Settings) : String := if s.fromStdin then "<stdin>" else "<expr>"

end Formula.Cli
