import Formula.Cli

/-! The command-line tool: reads its arguments, `MATHEXPR_TRACE` and, when asked to, standard
input, then writes what the run produced and exits with its status. -/

/-- Runs the tool. -/
def main (args : List String) : IO UInt32 := do
  let request := Formula.Cli.Request.ofArgs (args.map String.toUTF8)
  let input ← if request.readsStdin then (← IO.getStdin).readBinToEnd else pure ByteArray.empty
  let env : Formula.Environment := ⟨(← IO.getEnv "MATHEXPR_TRACE").map String.toUTF8⟩
  let result := request.exit input env
  let out ← IO.getStdout
  out.write result.stdout
  out.flush
  let err ← IO.getStderr
  err.write result.stderr
  err.flush
  return result.status
