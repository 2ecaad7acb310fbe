import FpgaScope.Host.Probes
import FpgaScope.Lib.Bijective
import FpgaScope.Lib.Changes

/-! The VCD writer of the host package. Text is a list of characters; `write_vcd` yields `none`
where Python raises. Below it the reader that replays a file: it looks for the value changes
behind the last end of the definitions, so that no name, date or timescale can disturb it. -/

namespace FpgaScope.Host

abbrev Text := List Char

/-! ### Writer -/

/-- The loop of `_ident`. -/
def identLoop : ℕ → Text
  | 0 => []
  | n + 1 => Char.ofNat (33 + n % 94) :: identLoop (n / 94)
decreasing_by exact Nat.lt_succ_of_le (Nat.div_le_self n 94)

/-- `_ident`: an identifier code of printable ASCII. -/
def ident (n : ℕ) : Text := identLoop (n + 1)

/-- The dictionary `codes`; a later signal of the same name replaces an earlier one. -/
def codes (sigs : List Signal) : String → Text :=
  sigs.zipIdx.foldl (fun d si => Function.update d si.1.name (ident si.2)) fun _ => []

def trigCode (sigs : List Signal) : Text := ident sigs.length

/-- `fmt`. -/
def fmt (codes : String → Text) (sig : Signal) (val : ℕ) : Text :=
  if sig.width = 1 then Nat.toDigits 10 (val &&& 1) ++ codes sig.name
  else 'b' :: Nat.toDigits 2 val ++ ' ' :: codes sig.name

/-- The dictionary `prev`. -/
abbrev Prev := String → Option ℕ

/-- The loop over the signals within a tick: `prev` after it, and the changes. -/
def signalChanges (codes : String → Text) (samp : ℤ) : List Signal → Prev → Option (Prev × List Text)
  | [], prev => some (prev, [])
  | s :: rest, prev =>
    (s.extract samp).bind fun v =>
      if prev s.name = some v then signalChanges codes samp rest prev
      else
        (signalChanges codes samp rest (Function.update prev s.name (some v))).map fun r =>
          (r.1, fmt codes s v :: r.2)

def trigNow (trigPos : Option ℤ) (t : ℕ) : ℕ := if trigPos = some (t : ℤ) then 1 else 0

/-- The lines written at tick `t`, given its changes. -/
def tickLines (trigPos : Option ℤ) (t : ℕ) (changes : List Text) : List Text :=
  if t = 0 ∨ changes ≠ [] then
    ('#' :: Nat.toDigits 10 t) ::
      (if t = 0 ∧ trigPos = some 0 then ["$comment trigger $end".toList]
        else if trigPos = some (t : ℤ) then ["$comment trigger $end".toList] else []) ++ changes
  else []

/-- One tick. -/
def tick (sigs : List Signal) (trigPos : Option ℤ) (t : ℕ) (samp : ℤ) (prev : Prev) :
    Option (Prev × List Text) :=
  (signalChanges (codes sigs) samp sigs prev).map fun r =>
    if r.1 "__trig" = some (trigNow trigPos t) then (r.1, tickLines trigPos t r.2)
    else
      (Function.update r.1 "__trig" (some (trigNow trigPos t)),
        tickLines trigPos t (r.2 ++ [Nat.toDigits 10 (trigNow trigPos t) ++ trigCode sigs]))

/-- The loop over the samples, from tick `t` on. -/
def dump (sigs : List Signal) (trigPos : Option ℤ) : ℕ → List ℤ → Prev → Option (List Text)
  | _, [], _ => some []
  | t, samp :: samples, prev =>
    (tick sigs trigPos t samp prev).bind fun r =>
      (dump sigs trigPos (t + 1) samples r.1).map (r.2 ++ ·)

/-- The `$var` line of a signal. -/
def varLine (codes : String → Text) (s : Signal) : Text :=
  "$var wire ".toList ++ (toString s.width).toList ++ ' ' :: codes s.name ++ ' ' :: s.name.toList ++ " $end".toList

def endDefinitions : Text := "$enddefinitions $end".toList

def header (sigs : List Signal) (timescale date : String) : List Text :=
  ["$date ".toList ++ date.toList ++ " $end".toList,
    "$version fpgapa-scope $end".toList,
    "$timescale ".toList ++ timescale.toList ++ " $end".toList,
    "$scope module scope $end".toList] ++
  sigs.map (varLine (codes sigs)) ++
  ["$var wire 1 ".toList ++ trigCode sigs ++ " trigger $end".toList,
    "$upscope $end".toList]

/-- Each line, or piece of several lines, with its line feed. -/
def unlines (lines : List Text) : Text := lines.flatMap (· ++ ['\n'])

/-- The argument `probes`: nothing, the path of a `probes.json`, its object, or signals. -/
inductive ProbesArg
  | none
  | path (mapping : Mapping)
  | object (mapping : Mapping)
  | signals (sigs : List Signal)

/-- The first line of `write_vcd`. What is not empty is asked for its item 0, which an object does
not have; an empty list of signals goes to `load_probes`, which takes it for a path. -/
def resolveProbes : ProbesArg → ℤ → Option (List Signal)
  | .none, probeW => some (loadProbes [] probeW)
  | .path mapping, probeW => some (loadProbes mapping probeW)
  | .object [], probeW => some (loadProbes [] probeW)
  | .object (_ :: _), _ => Option.none
  | .signals [], _ => Option.none
  | .signals (s :: sigs), _ => some (s :: sigs)

/-- `write_vcd`: the text of the file. -/
def writeVcd (samples : List ℤ) (probeW : ℤ) (probes : ProbesArg := .none) (timescale : String := "1ns")
    (trigPos : Option ℤ := Option.none) (date : String := "fpga-scope") : Option Text :=
  (resolveProbes probes probeW).bind fun sigs =>
    (dump sigs trigPos 0 samples fun _ => Option.none).map fun lines =>
      unlines (header sigs timescale date ++ endDefinitions :: lines)

/-! ### Reader -/

/-- One line at time `t`: the time behind it, and its value change. -/
def readLine (t : ℕ) : Text → ℕ × List (Change Text ℕ)
  | '#' :: time => (Nat.ofDigitChars 10 time 0, [])
  | '0' :: code => (t, [⟨t, code, 0⟩])
  | '1' :: code => (t, [⟨t, code, 1⟩])
  | 'b' :: rest =>
    (t, [⟨t, (rest.dropWhile (· ≠ ' ')).drop 1, Nat.ofDigitChars 2 (rest.takeWhile (· ≠ ' ')) 0⟩])
  | _ => (t, [])

def readLines : ℕ → List Text → List (Change Text ℕ)
  | _, [] => []
  | t, line :: lines => (readLine t line).2 ++ readLines (readLine t line).1 lines

/-- The lines behind the definitions. -/
def dumpLines (text : Text) : List Text :=
  ((text.splitOn '\n').reverse.takeWhile (· ≠ endDefinitions)).reverse

/-- The value of the variable `code` at time `t`. -/
def replay (text : Text) (code : Text) (t : ℕ) : Option ℕ :=
  Change.valueAt (readLines 0 (dumpLines text)) code t

/-- Bit `k` of the sample of tick `t`, from a signal that covers it. -/
def recoverBit (sigs : List Signal) (text : Text) (t k : ℕ) : Option Bool :=
  (sigs.find? fun s => s.Covers k).bind fun s =>
    (replay text (codes sigs s.name) t).map (·.testBit (k - s.lsb.toNat))

end FpgaScope.Host
