import LoopNest.CommandLine.Basic

/-! The program: reads the file that the command line names and prints what the request leaves. -/
open LoopNest

def readBytes (path : String) : IO (Option ByteArray) := do
  try
    return some (← IO.FS.readBinFile path)
  catch _ =>
    return none

def report (result : CommandLine.Result) : IO UInt32 := do
  IO.print result.output
  IO.eprint result.errors
  return result.code.toUInt32

def main (words : List String) : IO UInt32 := do
  match CommandLine.read words with
  | .error why => report why.result
  | .ok request => report (request.run (← readBytes request.path))
