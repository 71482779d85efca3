import StimOverlay.Command.Run

/-! The program. -/

namespace StimOverlay.Command

/-- The octets of a stream up to its end, behind those that have been read. -/
partial def readAll (stream : IO.FS.Stream) (before : ByteArray) : IO ByteArray := do
  let octets ← stream.read 65536
  if octets.isEmpty then pure before else readAll stream (before ++ octets)

/-- What a failed access says about a file. -/
def faultOf : IO.Error → FileFault
  | .noFileOrDirectory .. => .missing
  | .inappropriateType .. => .directory
  | .resourceVanished .. => .notInDirectory
  | _ => .missing

/-- The machine that the program runs on. -/
def ioHost : Host IO where
  lookup name := IO.getEnv name
  home? := IO.getEnv "HOME"
  exists? path := do
    try
      let _ ← IO.FS.Handle.mk path .read
      pure true
    catch
      | .noFileOrDirectory .. => pure false
      | .inappropriateType .. => pure false
      | _ => pure true
  read path := do
    try
      let octets ← IO.FS.readBinFile path
      pure (.ok octets.toList)
    catch e => pure (.error (faultOf e))
  write path text := do
    try
      IO.FS.writeFile path text
      pure true
    catch _ => pure false
  readInput := do pure (← readAll (← IO.getStdin) ByteArray.empty).toList
  print text := do
    let out ← IO.getStdout
    out.putStr text
    out.flush
  printError text := IO.eprint text

end StimOverlay.Command

def main (args : List String) : IO UInt32 := do
  let code ← StimOverlay.Command.run StimOverlay.Command.ioHost args
  pure code.toUInt32
