import TapeMachine.Command.Run

namespace TapeMachine.Command

def faultOf : IO.Error → Fault
  | .noFileOrDirectory .. => .notFound
  | .inappropriateType _ code _ => if code = 21 then .isDirectory else .notDirectory
  | failure => .other failure.toString

def readBytes (read : IO ByteArray) : IO (Except Fault ByteArray) := do
  try
    return .ok (← read)
  catch failure => return .error (faultOf failure)

def readInput : IO (Option (Except Fault ByteArray)) := do
  let input ← IO.getStdin
  if ← input.isTty then return none
  return some (← readBytes input.readBinToEnd)

def sources (o : Options) : IO Sources := do
  let file ← match o.file with
    | some path => if o.list then pure (.error .notFound) else readBytes (IO.FS.readBinFile path)
    | none => pure (.error .notFound)
  let input ← if o.readsInput then readInput else pure none
  return { file, input }

end TapeMachine.Command

def main (arguments : List String) : IO UInt32 := do
  let response ← match TapeMachine.Command.Options.read? arguments with
    | some options => do
        let sources ← TapeMachine.Command.sources options
        pure (TapeMachine.Command.respond options sources.supply)
    | none => pure TapeMachine.Command.usage
  (← IO.getStdout).putStr response.out
  (← IO.getStderr).putStr response.err
  return response.exit.toUInt32
