/-
  ArrayIR.Decimal.Layout — how floats are written.

  Two layouts share the shortest digits. `constant` is the one of program text and
  dumps: a whole number keeps `.0`, and very large or very small magnitudes are
  written with an exponent. `plain` is the one of messages: always positional, and
  a whole number has no point.
-/

import ArrayIR.Decimal.Shortest

namespace ArrayIR.Decimal

/-- The choices a layout makes. -/
structure Layout where
  /-- Whether a first digit at this exponent is written positionally. -/
  positional : Int → Bool
  /-- Whether a whole number ends in `.0`. -/
  keepsPoint : Bool

/-- Program text: positional from `1e-4` up to `1e16`. -/
def Layout.constant : Layout := ⟨fun e => -5 < e && e < 16, true⟩

/-- Messages: always positional. -/
def Layout.plain : Layout := ⟨fun _ => true, false⟩

def zeros (n : Nat) : String := String.ofList (List.replicate n '0')

def Digits.positional (d : Digits) (keepsPoint : Bool) : String :=
  let ds := (toString d.digits).toList
  if 0 ≤ d.exponent then
    String.ofList ds ++ zeros d.exponent.toNat ++ if keepsPoint then ".0" else ""
  else
    let places := (-d.exponent).toNat
    if places < ds.length then
      String.ofList (ds.take (ds.length - places)) ++ "." ++ String.ofList (ds.drop (ds.length - places))
    else "0." ++ zeros (places - ds.length) ++ String.ofList ds

def Digits.scientific (d : Digits) : String :=
  let ds := (toString d.digits).toList
  let point := if ds.length ≤ 1 then "" else "."
  let exponent := d.exponent + ds.length - 1
  String.ofList (ds.take 1) ++ point ++ String.ofList (ds.drop 1) ++ "e" ++ toString exponent

/-- The text of a float: its shortest digits in the given layout. -/
def Layout.write (l : Layout) (x : Float) : String :=
  if x.isNaN then "NaN"
  else
    let sign := if x.toBits ≥ 0x8000000000000000 then "-" else ""
    if x.isInf then sign ++ "inf"
    else if x == 0 then sign ++ if l.keepsPoint then "0.0" else "0"
    else
      let d := shortest x
      let first := d.exponent + (toString d.digits).length - 1
      sign ++ if l.positional first then d.positional l.keepsPoint else d.scientific

end ArrayIR.Decimal
