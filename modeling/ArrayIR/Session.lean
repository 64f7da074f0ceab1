/-
  ArrayIR.Session — the state that one compilation shares between its passes.

  A session only grows. Its name counter never goes back, a registered function is
  never replaced, and the result of a pass stays in the cache. A fresh name is the
  stem of the requested one and the counter, so refreshing a name again and again
  does not make it longer: a name gives up its last dot and the digits after it,
  unless nothing would be left. Names given different numbers are different
  (`numbered_inj`).
-/

import ArrayIR.Stmt
import ArrayIR.Error

namespace ArrayIR

/-- Options of the standard lowering. -/
structure Options where
  unrollFactor : Nat := 4
  /-- Tile sizes in the order in which fixed tiles ask for them. -/
  tileSizes : List Int64 := []
  deriving DecidableEq, Repr

namespace Options

/-- The tile size a fixed tile gets when the list has run out. -/
def defaultTileSize : Int64 := 4

/-- The size of the `i`-th fixed tile. -/
def tileSize (sizes : List Int64) (i : Nat) : Int64 := (sizes[i]?).getD defaultTileSize

/-- Loops with a longer body are not unrolled. -/
def maxUnrolledBody : Nat := 50

end Options

/-- The state of a compilation. Newer functions and newer pass results come first. -/
structure Session where
  nextName : Nat := 0
  functions : List Func := []
  passCache : List ((String × FnName) × Func) := []
  options : Options := {}

/-! ## Names -/

/-- The characters before the last dot and those after it. -/
def splitLastDot (cs : List Char) : Option (List Char × List Char) :=
  let back := cs.reverse
  match back.dropWhile (· ≠ '.') with
  | [] => none
  | _ :: before => some (before.reverse, (back.takeWhile (· ≠ '.')).reverse)

/-- A name without the number a session gave it. -/
def stem (name : String) : String :=
  match splitLastDot name.toList with
  | some (before, after) => if before ≠ [] ∧ after.all Char.isDigit then String.ofList before else name
  | none => name

/-- The name `stem` numbered `n`. -/
def numbered (name : String) (n : Nat) : String := stem name ++ "." ++ toString n

theorem takeWhile_before_dot {ds : List Char} (h : ∀ c ∈ ds, c ≠ '.') (cs : List Char) :
    (ds ++ '.' :: cs).takeWhile (· ≠ '.') = ds := by
  induction ds with
  | nil => rfl
  | cons d ds ih =>
    have hd := h d List.mem_cons_self
    rw [List.cons_append, List.takeWhile_cons_of_pos (by simpa using hd),
      ih fun c hc => h c (List.mem_cons_of_mem _ hc)]

theorem ne_dot_of_mem_digits (n : Nat) : ∀ c ∈ (toString n).toList, c ≠ '.' := by
  intro c hc e
  subst e
  rw [Nat.toString_eq_ofList_toDigits, String.toList_ofList] at hc
  exact absurd (Nat.isDigit_of_mem_toDigits (by decide) (by decide) hc) (by decide)

/-- Names with different numbers are different, whatever their stems. -/
theorem numbered_inj {a b : String} {m n : Nat} (h : numbered a m = numbered b n) : m = n := by
  have hlist := congrArg (fun s => s.toList.reverse.takeWhile (· ≠ '.')) h
  simp only [numbered, String.toList_append, List.reverse_append] at hlist
  have hdot : (".").toList.reverse = ['.'] := rfl
  rw [hdot] at hlist
  simp only [List.singleton_append] at hlist
  rw [takeWhile_before_dot, takeWhile_before_dot] at hlist
  · have hd := List.reverse_inj.mp hlist
    have hnum := congrArg (fun ds => Nat.ofDigitChars 10 ds 0) hd
    simpa [Nat.toString_eq_ofList_toDigits] using hnum
  · intro c hc
    exact ne_dot_of_mem_digits n c (List.mem_reverse.mp hc)
  · intro c hc
    exact ne_dot_of_mem_digits m c (List.mem_reverse.mp hc)

namespace Session

/-- A name that the session has not given out before, on the stem of `name`. -/
def fresh (s : Session) (name : String) : String × Session :=
  (numbered name s.nextName, { s with nextName := s.nextName + 1 })

/-! ## Functions -/

def find? (s : Session) (name : FnName) : Option Func := s.functions.find? (·.name = name)

def lookup (s : Session) (name : FnName) : Except Error Func :=
  match s.find? name with
  | some f => .ok f
  | none => .error (.unknownFunction name)

/-- Publish a function under its name, which must be free. -/
def register (s : Session) (f : Func) : Except Error Session :=
  match s.find? f.name with
  | some _ => .error (.duplicateFunction f.name)
  | none => .ok { s with functions := f :: s.functions }

def numFunctions (s : Session) : Nat := s.functions.length

/-! ## Pass results -/

/-- The result of the pass called `key` on the function `source`, if it is known. -/
def cached (s : Session) (key : String) (source : FnName) : Option Func :=
  (s.passCache.find? (·.1 = (key, source))).map (·.2)

def insertCached (s : Session) (key : String) (source : FnName) (result : Func) : Session :=
  { s with passCache := ((key, source), result) :: s.passCache }

end Session

/-- Computations over a session; one that fails keeps the session it has reached. -/
abbrev Compile := EStateM Fault Session

end ArrayIR
