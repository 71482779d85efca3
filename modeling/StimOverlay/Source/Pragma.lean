import StimOverlay.Text.Pieces
import StimOverlay.Text.Replace

/-! Pragma lines. Polygons, error marks and `MARK` lines are not plain circuit instructions, so
files carry them behind `#!pragma`, which makes them comments to other readers. Here the marker is
dropped from and put back in front of such lines. -/

namespace StimOverlay.Source

def pragmaMarker : String := "#!pragma "

/-- The instruction names, or beginnings of names, that stand behind a pragma marker. -/
def pragmaNames : List String := ["ERR", "MARK", "POLYGON"]

/-- Removes the pragma markers, wherever they stand in front of one of the names. -/
def dropPragmas (text : List Char) : List Char :=
  Text.replaceEach (pragmaNames.map fun name => (pragmaMarker ++ name, name)) text

/-- Puts the marker in front of a line that starts with one of the names, after its blanks. -/
def markPragma (line : List Char) : List Char :=
  let body := Text.trimStart line
  if pragmaNames.any fun name => Text.startsWith body name.toList then
    line.takeWhile Text.isBlank ++ pragmaMarker.toList ++ body
  else line

/-- The text with a pragma marker on every line that needs one. -/
def restorePragmas (text : List Char) : List Char :=
  Text.joinWith ['\n'] ((Text.splitWhere (· == '\n') text).map markPragma)

end StimOverlay.Source
