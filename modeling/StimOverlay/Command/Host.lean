import StimOverlay.Config.Basic

/-! Hosts: what a command needs from the machine it runs on. -/

namespace StimOverlay.Command

/-- The surroundings of a command, whose actions take place in the monad `m`. -/
structure Host (m : Type → Type) where
  /-- The value of an environment variable. -/
  lookup : String → m (Option String)
  /-- The home directory of the user. -/
  home? : m (Option String)
  /-- Whether there is a file or directory at a path. -/
  exists? : String → m Bool
  /-- The octets of a file. -/
  read : String → m (Except FileFault (List UInt8))
  /-- Replaces the text of a file; false if that is impossible. -/
  write : String → String → m Bool
  /-- The octets of standard input. -/
  readInput : m (List UInt8)
  print : String → m Unit
  printError : String → m Unit

end StimOverlay.Command
