import LispCompiler.CommandLine.Run

namespace LispCompiler.CommandLine

/-- Prompts for lines and answers them until the input ends. -/
partial def prompting (compiler : Compiler σ μ) (stage : Stage) (session : Session σ μ) :
    IO Unit := do
  let output ← IO.getStdout
  output.putStr prompt
  output.flush
  let line ← (← IO.getStdin).getLine
  if line.isEmpty then
    output.putStr closing
  else
    let (answer, session) := respond compiler stage line session
    output.putStr answer
    prompting compiler stage session

def finish (outcome : Outcome) : IO UInt32 := do
  try
    let stdout ← IO.getStdout
    stdout.write ⟨outcome.output.toArray⟩
    stdout.flush
    (← IO.getStderr).putStr outcome.stderr
    return outcome.exitCode.toUInt32
  catch error =>
    (← IO.getStderr).putStr (errorLine (toString error))
    return 1

end LispCompiler.CommandLine
