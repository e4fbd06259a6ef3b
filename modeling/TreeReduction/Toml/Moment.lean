import TreeReduction.Json.Token

set_option autoImplicit false

/-!
# Dates and times

Which words spell a moment: a date, a time of day, or a date and a time of day with or without an
offset from universal time. A date has to be one of the calendar, and a minute may have a leap
second. Each reader takes its part from the front and answers what follows.
-/

namespace TreeReduction.Toml.Moment

/-- Takes a number of so many digits. -/
def number? (digits : Nat) (letters : List Char) : Option (Nat × List Char) :=
  let front := letters.take digits
  if front.length = digits ∧ front.all Char.isDigit then
    some (Json.digitsValue front, letters.drop digits)
  else none

/-- Takes a number of two digits that is at most `bound`. -/
def pair? (bound : Nat) (letters : List Char) : Option (Nat × List Char) :=
  (number? 2 letters).bind fun p => if p.1 ≤ bound then some p else none

/-- Takes a character. -/
def mark? (mark : Char) : List Char → Option (List Char)
  | [] => none
  | c :: rest => if c = mark then some rest else none

/-! ## Dates -/

/-- Whether a year has a leap day. -/
def isLeapYear (year : Nat) : Bool :=
  year % 4 == 0 && (year % 100 != 0 || year % 400 == 0)

/-- How many days a month has, counted from one. -/
def daysOf (year month : Nat) : Nat :=
  if month = 2 then if isLeapYear year then 29 else 28
  else if [4, 6, 9, 11].contains month then 30
  else 31

/-- Takes a date. -/
def date? (letters : List Char) : Option (List Char) := do
  let (year, rest) ← number? 4 letters
  let (month, rest) ← pair? 12 (← mark? '-' rest)
  let (day, rest) ← number? 2 (← mark? '-' rest)
  if 1 ≤ month ∧ 1 ≤ day ∧ day ≤ daysOf year month then some rest else none

/-! ## Times of day -/

/-- Takes an hour and a minute. -/
def clock? (letters : List Char) : Option (List Char) := do
  let (_, rest) ← pair? 23 letters
  let (_, rest) ← pair? 59 (← mark? ':' rest)
  some rest

/-- Takes the fraction of a second, if one stands there. -/
def fraction? : List Char → Option (List Char)
  | '.' :: rest =>
    if rest.head?.any Char.isDigit then some (rest.dropWhile Char.isDigit) else none
  | rest => some rest

/-- Takes a time of day, in which the seconds may be left out. -/
def time? (letters : List Char) : Option (List Char) := do
  match ← clock? letters with
  | ':' :: rest =>
    let (_, rest) ← pair? 60 rest
    fraction? rest
  | rest => some rest

/-- Takes an offset from universal time, if anything follows at all. -/
def offset? : List Char → Option (List Char)
  | [] => some []
  | c :: rest =>
    if c = 'Z' ∨ c = 'z' then some rest
    else if c = '+' ∨ c = '-' then clock? rest
    else none

/-- Takes what may follow a date. -/
def afterDate? : List Char → Option (List Char)
  | [] => some []
  | c :: rest => if c = 'T' ∨ c = 't' ∨ c = ' ' then (time? rest).bind offset? else none

/-- Whether a word spells a moment. -/
def isMoment (word : List Char) : Bool :=
  ((date? word).bind afterDate?).any (·.isEmpty) || (time? word).any (·.isEmpty)

end TreeReduction.Toml.Moment
