/-!
# Days of the proleptic Gregorian calendar

Day numbers count from 1970-01-01. Years run from March, so that the leap day
is the last one, and 400 of them make an era of 146097 days.
-/

namespace StreamQuery

structure CivilDate where
  year : Int
  month : Nat
  day : Nat
  deriving DecidableEq, Repr

def CivilDate.ofDay (number : Int) : CivilDate :=
  let shifted := number + 719468
  let era := shifted / 146097
  let dayOfEra := (shifted % 146097).toNat
  let yearOfEra := (dayOfEra - dayOfEra / 1460 + dayOfEra / 36524 - dayOfEra / 146096) / 365
  let dayOfYear := dayOfEra - (365 * yearOfEra + yearOfEra / 4 - yearOfEra / 100)
  let marchMonth := (5 * dayOfYear + 2) / 153
  let month := if marchMonth < 10 then marchMonth + 3 else marchMonth - 9
  let marchYear := (yearOfEra : Int) + era * 400
  { year := if month ≤ 2 then marchYear + 1 else marchYear
    month
    day := dayOfYear - (153 * marchMonth + 2) / 5 + 1 }

def zeroPadded (width n : Nat) : String :=
  let digits := toString n
  String.ofList (List.replicate (width - digits.length) '0') ++ digits

end StreamQuery
