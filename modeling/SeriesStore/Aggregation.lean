import SeriesStore.CaseFold
import SeriesStore.Error

/-!
# Aggregations

A rule turns the samples of a bucket into one value by an aggregation.
-/

namespace SeriesStore

/-- How the samples of a bucket become one value. -/
inductive Aggregation
  | min
  | max
  | sum
  | avg
  | count
  | first
  | last
  -- The distance from the least value to the greatest.
  | range
  -- The variance of a population.
  | varP
  -- The variance estimated from a sample of a population.
  | varS
  -- The standard deviation of a population.
  | stdP
  -- The standard deviation estimated from a sample of a population.
  | stdS
  deriving DecidableEq, Inhabited

namespace Aggregation

/-- All aggregations. -/
def all : List Aggregation :=
  [min, max, sum, avg, count, first, last, range, varP, varS, stdP, stdS]

/-- The name of an aggregation. -/
def name : Aggregation → String
  | min => "min"
  | max => "max"
  | sum => "sum"
  | avg => "avg"
  | count => "count"
  | first => "first"
  | last => "last"
  | range => "range"
  | varP => "var.p"
  | varS => "var.s"
  | stdP => "std.p"
  | stdS => "std.s"

/-- The text shown for an aggregation: its name in capital letters. -/
def display : Aggregation → String
  | min => "MIN"
  | max => "MAX"
  | sum => "SUM"
  | avg => "AVG"
  | count => "COUNT"
  | first => "FIRST"
  | last => "LAST"
  | range => "RANGE"
  | varP => "VAR.P"
  | varS => "VAR.S"
  | stdP => "STD.P"
  | stdS => "STD.S"

/-- The aggregation with exactly this name. -/
def ofName? (s : String) : Option Aggregation := all.find? (·.name == s)

/-- The aggregation with this name in any letter case. -/
def parse (s : String) : Except StoreError Aggregation :=
  match ofName? (foldCase s) with
  | some a => .ok a
  | none => .error (.invalidArgument s!"Unknown aggregation: {s}")

end Aggregation

end SeriesStore
