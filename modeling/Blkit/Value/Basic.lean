import Mathlib.Data.Rat.Floor

/-!
# The values of the expression language

Every value that passes through the engine is one of the sealed `Bl*` structs
of `core/*.go`.  `BlValue` has one constructor per struct, with the struct's own
fields; `Kind` names the Go type of a value, which is what a handle's type
parameter and a type assertion `v.(T)` look at.

Decimals are rationals (every decimal is one, and nothing here depends on the
exponent a decimal is stored with).  A `time.Time` is the instant it denotes
together with the offset of its location.
-/

namespace Blkit

/-- The part of a Go `time.Time` the value types read: the instant, in
nanoseconds since the epoch, and the location's offset in seconds. -/
structure GoTime where
  unixNano : Int
  offset : Int
deriving DecidableEq, Repr

/-- Wall-clock nanoseconds in the time's own location. -/
def GoTime.wall (t : GoTime) : Int := t.unixNano + t.offset * 1000000000

/-- The language type tags of `engine.go`. -/
inductive BlType where
  | null | number | string | boolean | date | time | dateTime | daysTimeDuration
  | yearsMonthsDuration | list | dictionary | range | table | calendar | regex
  | groupedTable | sortKey | any
deriving DecidableEq, Repr

/-- `typeName`: the lowercase name used in error texts. -/
def typeName : BlType → String
  | .null => "null"
  | .number => "number"
  | .string => "string"
  | .boolean => "boolean"
  | .date => "date"
  | .time => "time"
  | .dateTime => "datetime"
  | .daysTimeDuration => "dtDuration"
  | .yearsMonthsDuration => "ymDuration"
  | .list => "list"
  | .dictionary => "dictionary"
  | .range => "range"
  | .table => "table"
  | .calendar => "calendar"
  | .regex => "regex"
  | .any => "any"
  | .groupedTable | .sortKey => "unknown"

/-- The concrete Go types that implement `BlValue`. -/
inductive Kind where
  | null | boolean | number | string | date | time | dateTime | daysTimeDuration
  | yearsMonthsDuration | list | dictionary | range | table | calendarEntry | calendar
  | regex | func | sortKey
deriving DecidableEq, Repr

/-- The `Type()` method; calendar entries and function values report `TypeAny`. -/
def Kind.blType : Kind → BlType
  | .null => .null
  | .boolean => .boolean
  | .number => .number
  | .string => .string
  | .date => .date
  | .time => .time
  | .dateTime => .dateTime
  | .daysTimeDuration => .daysTimeDuration
  | .yearsMonthsDuration => .yearsMonthsDuration
  | .list => .list
  | .dictionary => .dictionary
  | .range => .range
  | .table => .table
  | .calendarEntry => .any
  | .calendar => .calendar
  | .regex => .regex
  | .func => .any
  | .sortKey => .sortKey

/-- The name of the Go type, as `%T` prints it. -/
def Kind.goName : Kind → String
  | .null => "core.BlNull"
  | .boolean => "core.BlBoolean"
  | .number => "core.BlNumber"
  | .string => "core.BlString"
  | .date => "core.BlDate"
  | .time => "core.BlTime"
  | .dateTime => "core.BlDateTime"
  | .daysTimeDuration => "core.BlDaysTimeDuration"
  | .yearsMonthsDuration => "core.BlYearsMonthsDuration"
  | .list => "core.BlList"
  | .dictionary => "core.BlDictionary"
  | .range => "core.BlRange"
  | .table => "core.BlTable"
  | .calendarEntry => "core.BlCalendarEntry"
  | .calendar => "core.BlCalendar"
  | .regex => "core.BlRegex"
  | .func => "core.BlFunc"
  | .sortKey => "core.BlSortKey"

/-- A blkit value.  A dictionary is its entries in insertion order, a table its
column list and its rows. -/
inductive BlValue where
  | null
  | boolean (b : Bool)
  | number (d : ℚ)
  | string (s : String)
  | date (t : GoTime) (naive : Bool)
  | time (t : GoTime) (naive : Bool)
  | dateTime (t : GoTime) (naive : Bool)
  | daysTimeDuration (secs : ℚ)
  | yearsMonthsDuration (months : ℚ)
  | list (items : List BlValue)
  | dictionary (entries : List (String × BlValue))
  | range (start stop : BlValue) (startIncluded endIncluded : Bool)
  | table (columns : List String) (rows : List (List (String × BlValue)))
  | calendarEntry (name : Option String) (value : BlValue)
  | calendar (entries : List (Option String × BlValue)) (validFrom validTo : BlValue)
  | regex (source : String)
  | func (params : List String) (body : String)
  | sortKey (column : String) (descending : Bool) (order : Option (List BlValue))

/-- A dictionary's entries, also a table's row. -/
abbrev Row := List (String × BlValue)

namespace BlValue

instance : Inhabited BlValue := ⟨.null⟩

/-- The Go type of a value. -/
def kind : BlValue → Kind
  | .null => .null
  | .boolean _ => .boolean
  | .number _ => .number
  | .string _ => .string
  | .date _ _ => .date
  | .time _ _ => .time
  | .dateTime _ _ => .dateTime
  | .daysTimeDuration _ => .daysTimeDuration
  | .yearsMonthsDuration _ => .yearsMonthsDuration
  | .list _ => .list
  | .dictionary _ => .dictionary
  | .range _ _ _ _ => .range
  | .table _ _ => .table
  | .calendarEntry _ _ => .calendarEntry
  | .calendar _ _ _ => .calendar
  | .regex _ => .regex
  | .func _ _ => .func
  | .sortKey _ _ _ => .sortKey

/-- `v.Type()`. -/
def blType (v : BlValue) : BlType := v.kind.blType

/-- `v.IsNull()`: true only for `BlNull`. -/
def isNull : BlValue → Bool
  | .null => true
  | _ => false

@[simp] lemma isNull_iff (v : BlValue) : v.isNull ↔ v = .null := by
  cases v <;> simp [isNull]

@[simp] lemma kind_eq_null_iff (v : BlValue) : v.kind = .null ↔ v = .null := by
  cases v <;> simp [kind]

end BlValue

/-- The Go zero value of a type: what a struct field nobody wrote holds.  The
two end points of a zero range are nil interfaces; they read as null. -/
def Kind.zero : Kind → BlValue
  | .null => .null
  | .boolean => .boolean false
  | .number => .number 0
  | .string => .string ""
  | .date => .date ⟨-62135596800000000000, 0⟩ false
  | .time => .time ⟨-62135596800000000000, 0⟩ false
  | .dateTime => .dateTime ⟨-62135596800000000000, 0⟩ false
  | .daysTimeDuration => .daysTimeDuration 0
  | .yearsMonthsDuration => .yearsMonthsDuration 0
  | .list => .list []
  | .dictionary => .dictionary []
  | .range => .range .null .null false false
  | .table => .table [] []
  | .calendarEntry => .calendarEntry none .null
  | .calendar => .calendar [] .null .null
  | .regex => .regex ""
  | .func => .func [] ""
  | .sortKey => .sortKey "" false none

@[simp] lemma Kind.kind_zero (k : Kind) : k.zero.kind = k := by
  cases k <;> rfl

/-- The errors the modelled code returns: a `*TypeError` with its operation and
detail, or a plain `fmt.Errorf` text. -/
inductive GoError where
  | typeError (op detail : String)
  | text (message : String)
deriving DecidableEq, Repr

/-- The detail of `argTypeError`, for an argument of this Go type. -/
def argTypeDetail (goName : String) : String := "unexpected argument type " ++ goName

/-- `argTypeError`. -/
def BlValue.argTypeError (v : BlValue) : GoError := .typeError "call" (argTypeDetail v.kind.goName)

/-- A Go call that returns `(T, error)`. -/
abbrev Result (α : Type) := Except GoError α

end Blkit
