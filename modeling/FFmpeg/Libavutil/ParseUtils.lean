import FFmpeg.Libavutil.AvString
import FFmpeg.Libavutil.Mathematics
import FFmpeg.Libavutil.Error
import FFmpeg.Libavutil.Rational

/-!
# Parsing times

The fields of a broken-down time and the small `strptime` of `libavutil/parseutils.c`.  A C string
is the list of its bytes before the NUL.
-/

namespace FFmpeg.Libavutil.ParseUtils

open Common

/-- The members of `struct tm` that are used here. -/
structure Tm where
  sec : Int := 0
  min : Int := 0
  hour : Int := 0
  mday : Int := 0
  mon : Int := 0
  year : Int := 0
  deriving DecidableEq, Repr

/-- `av_isdigit`. -/
def avIsdigit (c : UInt8) : Bool := 48 ≤ c && c ≤ 57

/-- `av_isspace`: a space or one of `\t`, `\n`, `\v`, `\f` and `\r`. -/
def avIsspace (c : UInt8) : Bool := c == 32 || (9 ≤ c && c ≤ 13)

/-- `av_tolower`. -/
def avTolower (c : UInt8) : UInt8 := if 65 ≤ c && c ≤ 90 then c ^^^ 0x20 else c

/-- The value of a digit. -/
def digit (c : UInt8) : Int := c.toNat - 48

/-! ## Numbers and months -/

/-- The loop of `date_get_num`, for at most so many characters. -/
def dateGetNumLoop : Nat → Bytes → Int → Bytes × Int
  | 0, p, val => (p, val)
  | _ + 1, [], val => ([], val)
  | n + 1, c :: p, val =>
    if avIsdigit c then dateGetNumLoop n p (val * 10 + digit c) else (c :: p, val)

/-- `date_get_num`: the rest of the text and the number, or nothing for -1. -/
def dateGetNum (p : Bytes) (nMin nMax : Int) (lenMax : Nat) : Option (Bytes × Int) :=
  let r := dateGetNumLoop lenMax p 0
  if r.1 = p then none
  else if r.2 < nMin ∨ nMax < r.2 then none
  else some r

/-- `months`. -/
def months : List Bytes :=
  ["january", "february", "march", "april", "may", "june", "july", "august", "september",
    "october", "november", "december"].map fun name => name.toList.map Char.toUInt8

/-- `av_strncasecmp` finds no difference to a word of the length that is compared. -/
def startsWithWord (p word : Bytes) : Bool :=
  (p.take word.length).map avTolower == word.map avTolower

/-- `date_get_month`, from the month `i` on. -/
def dateGetMonth (p : Bytes) : List Bytes → Int → Option (Bytes × Int)
  | [], _ => none
  | name :: names, i =>
    if startsWithWord p (name.take 3) then
      let full := name.drop 3
      let p := p.drop 3
      if 0 < full.length ∧ startsWithWord p full then some (p.drop full.length, i) else some (p, i)
    else dateGetMonth p names (i + 1)

/-! ## Formats -/

/-- The fields after a number or a month was read, or the old ones with NULL. -/
def store (dt : Tm) (field : Int → Tm) : Option (Bytes × Int) → Tm × Option Bytes
  | none => (dt, none)
  | some (p, val) => (field val, some p)

/-- The conversions after a `%` of `av_small_strptime`, without `%T`. -/
def plainConversion (c : UInt8) (p : Bytes) (dt : Tm) : Tm × Option Bytes :=
  -- `H` and `J`
  if c = 72 then store dt (fun val => { dt with hour := val }) (dateGetNum p 0 23 2)
  else if c = 74 then store dt (fun val => { dt with hour := val }) (dateGetNum p 0 intMax 4)
  -- `M` and `S`
  else if c = 77 then store dt (fun val => { dt with min := val }) (dateGetNum p 0 59 2)
  else if c = 83 then store dt (fun val => { dt with sec := val }) (dateGetNum p 0 59 2)
  -- `Y`, `m` and `d`
  else if c = 89 then store dt (fun val => { dt with year := val - 1900 }) (dateGetNum p 0 9999 4)
  else if c = 109 then store dt (fun val => { dt with mon := val - 1 }) (dateGetNum p 1 12 2)
  else if c = 100 then store dt (fun val => { dt with mday := val }) (dateGetNum p 1 31 2)
  -- `b`, `B` and `h`
  else if c = 98 ∨ c = 66 ∨ c = 104 then
    store dt (fun val => { dt with mon := val }) (dateGetMonth p months 0)
  -- `%`
  else if c = 37 then
    match p with
    | [] => (dt, none)
    | b :: p => if b = 37 then (dt, some p) else (dt, none)
  else (dt, none)

/-- The loop of `av_small_strptime` over a format, for these conversions: the fields that were
stored, and the rest of the text unless it does not fit. -/
def strptimeLoop (conversion : UInt8 → Bytes → Tm → Tm × Option Bytes) :
    Bytes → Bytes → Tm → Tm × Option Bytes
  | [], p, dt => (dt, some p)
  | f :: fmt, p, dt =>
    if f ≠ 37 then
      if avIsspace f then strptimeLoop conversion fmt (p.dropWhile avIsspace) dt
      else
        match p with
        | [] => (dt, none)
        | b :: p => if b ≠ f then (dt, none) else strptimeLoop conversion fmt p dt
    else
      match fmt with
      | [] => (dt, none)
      | c :: fmt =>
        match conversion c p dt with
        | (dt, none) => (dt, none)
        | (dt, some p) => strptimeLoop conversion fmt p dt

/-- `%H:%M:%S`. -/
def hmsFmt : Bytes := [37, 72, 58, 37, 77, 58, 37, 83]

/-- All conversions: `%T` is a format of its own. -/
def conversion (c : UInt8) (p : Bytes) (dt : Tm) : Tm × Option Bytes :=
  if c = 84 then strptimeLoop plainConversion hmsFmt p dt else plainConversion c p dt

/-- `av_small_strptime`. -/
def avSmallStrptime (p fmt : Bytes) (dt : Tm) : Tm × Option Bytes :=
  strptimeLoop conversion fmt p dt

/-- `av_timegm`. -/
def avTimegm (tm : Tm) : Int :=
  let y := tm.year + 1900
  let m := tm.mon + 1
  let d := tm.mday
  let early := m < 3
  let m := if early then m + 12 else m
  let y := if early then y - 1 else y
  let t := 86400 * (d + (153 * m - 457).tdiv 5 + 365 * y + y.tdiv 4 - y.tdiv 100 + y.tdiv 400 -
    719469)
  t + (3600 * tm.hour + 60 * tm.min + tm.sec)

/-! ## Parsing durations

`av_parse_time` for durations.  A text is tried as `H:MM:SS`, then as `MM:SS`, and at last its
number is read by `strtoll`; a decimal part and a unit may follow.  The arithmetic is checked: no
result means that a signed operation overflows. -/

/-- The number that digits stand for, behind `val`. -/
def numberFrom (val : Int) (digits : Bytes) : Int :=
  digits.foldl (fun val c => val * 10 + digit c) val

/-- What `strtoll` gives back: the number, the rest of the text, and `errno` being `ERANGE`. -/
structure Strtoll where
  value : Int
  rest : Bytes
  erange : Bool
  deriving DecidableEq, Repr

/-- `strtoll` with base 10, in the C locale. -/
def strtoll (p : Bytes) : Strtoll :=
  let q := p.dropWhile avIsspace
  let negative := q.head? = some 45
  let q := if negative ∨ q.head? = some 43 then q.tail else q
  let digits := q.takeWhile avIsdigit
  let rest := q.dropWhile avIsdigit
  let n := if negative then -numberFrom 0 digits else numberFrom 0 digits
  if digits = [] then ⟨0, p, false⟩
  else if int64Max < n then ⟨int64Max, rest, true⟩
  else if n < int64Min then ⟨int64Min, rest, true⟩
  else ⟨n, rest, false⟩

/-- `%J:%M:%S`. -/
def jmsFmt : Bytes := [37, 74, 58, 37, 77, 58, 37, 83]

/-- `%M:%S`. -/
def msFmt : Bytes := [37, 77, 58, 37, 83]

/-- The loop over the decimal digits, with the weight `n` of the next one. -/
def fractionLoop : Int → Bytes → Int → Option (Int × Bytes)
  | _, [], microseconds => some (microseconds, [])
  | n, c :: q, microseconds =>
    if n < 1 ∨ avIsdigit c = false then some (microseconds, c :: q)
    else do
      let term ← intOp (n * digit c)
      let microseconds ← intOp (microseconds + term)
      fractionLoop (n.tdiv 10) q microseconds

/-- The `.m...` part: the microseconds and the rest of the text. -/
def fractionPart (q : Bytes) : Option (Int × Bytes) :=
  if q.head? = some 46 then do
    let (microseconds, q) ← fractionLoop 100000 q.tail 0
    some (microseconds, q.dropWhile avIsdigit)
  else some (0, q)

/-- The unit: `suffix`, the microseconds that are left and the rest of the text. -/
def unitPart (microseconds : Int) (q : Bytes) : Int × Int × Bytes :=
  if q.take 2 = [109, 115] then (1000, microseconds.tdiv 1000, q.drop 2)
  else if q.take 2 = [117, 115] then (1, 0, q.drop 2)
  else if q.head? = some 115 then (1000000, microseconds, q.tail)
  else (1000000, microseconds, q)

/-- An error leaves `*timeval` as it was set at the start. -/
def failed (error : AVERROR) : Int × Int := (error.toInt, int64Min)

/-- The range checks and the scaling: what is returned and `*timeval`. -/
def scaleTime (negative : Bool) (t suffix microseconds : Int) : Option (Int × Int) :=
  if int64Max.tdiv suffix < t then some (failed .erange)
  else do
    let t ← int64Op (t * suffix)
    let room ← int64Op (int64Max - microseconds)
    if room < t then some (failed .erange)
    else do
      let t ← int64Op (t + microseconds)
      let timeval ← int64Op (if negative then -t else t)
      some (0, timeval)

/-- From the decimal part on. -/
def parseTail (negative : Bool) (t : Int) (q : Bytes) : Option (Int × Int) := do
  let (microseconds, q) ← fractionPart q
  let (suffix, microseconds, q) := unitPart microseconds q
  if q ≠ [] then some (failed .einval) else scaleTime negative t suffix microseconds

/-- `dt.tm_hour * 3600 + dt.tm_min * 60 + dt.tm_sec`, of type `int`. -/
def clockSeconds (dt : Tm) : Option Int := do
  let hours ← intOp (dt.hour * 3600)
  let minutes ← intOp (dt.min * 60)
  let sum ← intOp (hours + minutes)
  intOp (sum + dt.sec)

/-- The fields and the rest of the text, as `H:MM:SS` or as `MM:SS`. -/
def parseClock (p : Bytes) : Tm × Option Bytes :=
  match avSmallStrptime p jmsFmt {} with
  | (dt, some q) => (dt, some q)
  | (dt, none) =>
    let (dt, q) := avSmallStrptime p msFmt dt
    ({ dt with hour := 0 }, q)

/-- `av_parse_time` with `duration`: what is returned and `*timeval`. -/
def avParseTimeDuration (timestr : Bytes) : Option (Int × Int) :=
  let negative : Bool := timestr.head? = some 45
  let p := if negative then timestr.tail else timestr
  match parseClock p with
  | (dt, some q) => do
    let t ← clockSeconds dt
    parseTail negative t q
  | (_, none) =>
    let r := strtoll p
    if r.rest = p then some (failed .einval)
    else if r.erange then some (failed .erange)
    else parseTail negative r.value r.rest

example : avParseTimeDuration "-1:02:03.5".toUTF8.toList = some (0, -3723500000) := by
  decide +kernel

end FFmpeg.Libavutil.ParseUtils
