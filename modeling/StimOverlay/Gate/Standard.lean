import StimOverlay.Gate.Catalog

/-! The standard gates of Stim circuits and the other names they go by. Noise channels and
coordinate shifts are known but ignored: they leave nothing to lay out. -/

namespace StimOverlay

namespace Gate

def singleQubitUnitaries : List String := [
  "I", "X", "Y", "Z", "H", "H_XY", "H_YZ", "H_NXY", "H_NXZ", "H_NYZ", "S", "S_DAG", "SQRT_X",
  "SQRT_X_DAG", "SQRT_Y", "SQRT_Y_DAG", "C_XYZ", "C_ZYX", "C_NXYZ", "C_XNYZ", "C_XYNZ", "C_NZYX",
  "C_ZNYX", "C_ZYNX"]

def twoQubitUnitaries : List String := [
  "II", "CX", "CY", "CZ", "XCX", "XCY", "YCX", "YCY", "SWAP", "ISWAP", "ISWAP_DAG", "SQRT_XX",
  "SQRT_XX_DAG", "SQRT_YY", "SQRT_YY_DAG", "SQRT_ZZ", "SQRT_ZZ_DAG", "CXSWAP", "SWAPCX", "CZSWAP"]

def resets : List String := ["R", "RX", "RY"]

def measurements : List String := ["M", "MX", "MY"]

def measureResets : List String := ["MR", "MRX", "MRY"]

def pairMeasurements : List String := ["MXX", "MYY", "MZZ"]

def markers : List String := ["MARKX", "MARKY", "MARKZ", "ERR", "DETECTOR", "OBSERVABLE_INCLUDE"]

/-- The standard table. -/
def standard : List Gate :=
  singleQubitUnitaries.map (⟨·, 1, true, .unitary⟩) ++
  twoQubitUnitaries.map (⟨·, 2, true, .unitary⟩) ++
  resets.map (⟨·, 1, true, .reset⟩) ++
  measurements.map (⟨·, 1, true, .measurement⟩) ++
  measureResets.map (⟨·, 1, true, .measureReset⟩) ++
  pairMeasurements.map (⟨·, 2, true, .measurement⟩) ++
  markers.map (⟨·, 1, false, .marker⟩)

end Gate

namespace Alias

def renamings : List (String × Alias) := [
  ("CNOT", .renamed "CX" false),
  ("ZCX", .renamed "CX" false),
  ("ZCY", .renamed "CY" false),
  ("ZCZ", .renamed "CZ" false),
  ("XCZ", .renamed "CX" true),
  ("YCZ", .renamed "CY" true),
  ("SWAPCZ", .renamed "CZSWAP" false),
  ("H_XZ", .renamed "H" false),
  ("SQRT_Z", .renamed "S" false),
  ("SQRT_Z_DAG", .renamed "S_DAG" false),
  ("MZ", .renamed "M" false),
  ("RZ", .renamed "R" false),
  ("MRZ", .renamed "MR" false)]

/-- Noise channels and coordinate shifts. -/
def ignoredNames : List String := [
  "DEPOLARIZE1", "DEPOLARIZE2", "X_ERROR", "Y_ERROR", "Z_ERROR", "I_ERROR", "II_ERROR",
  "PAULI_CHANNEL_1", "PAULI_CHANNEL_2", "E", "CORRELATED_ERROR", "ELSE_CORRELATED_ERROR",
  "SHIFT_COORDS"]

def standard : List (String × Alias) := renamings ++ ignoredNames.map (·, .ignored)

end Alias

/-- The standard gates and aliases. -/
def Catalog.standard : Catalog := .ofLists Gate.standard Alias.standard

end StimOverlay
