import NetworkEx.CText
import NetworkEx.CivilCalendar

namespace NetworkEx.HttpDate
open ByteStreams CText CivilCalendar

def dayNames : List Bytes := ["Sun","Mon","Tue","Wed","Thu","Fri","Sat"].map ascii
def monthNames : List Bytes :=
  ["Jan","Feb","Mar","Apr","May","Jun","Jul","Aug","Sep","Oct","Nov","Dec"].map ascii

def dayName (day : Nat) : Bytes := dayNames.getD day []
def monthName (month : Nat) : Bytes := monthNames.getD (month - 1) []

-- A point in time, in seconds since 1 January 1970 in GMT, as a text.
def clock (seconds : Nat) : Bytes :=
  [58].intercalate [decimal02 (seconds / 3600),decimal02 (seconds / 60 % 60),decimal02 (seconds % 60)]

def httpDate (time : Int) : Bytes :=
  let date := dateOfDays (time / 86400)
  [32].intercalate [dayName (weekday (time / 86400)) ++ [44],decimalNat date.day,monthName date.month,decimal date.year,
    clock (time % 86400).toNat,ascii "GMT"]

def readClock (text : Bytes) : Option Nat :=
  match text.splitOn 58 with
  | [hour,min,sec] => do
    let hour ← readNat hour
    let min ← readNat min
    let sec ← readNat sec
    if hour < 24 ∧ min < 60 ∧ sec < 60 then some (hour * 3600 + min * 60 + sec) else none
  | _ => none

-- The time a text denotes. The weekday must be the one of the date, and the
-- date one of the calendar.
def readDate (text : Bytes) : Option Int :=
  match text.splitOn 32 with
  | [day,mday,mon,year,clock,zone] => do
    let mday ← readNat mday
    let year ← readInt year
    let seconds ← readClock clock
    let date : Date := ⟨year,monthNames.idxOf mon + 1,mday⟩
    let days := daysOfDate date
    if dateOfDays days = date ∧ day = dayName (weekday days) ++ [44] ∧ zone = ascii "GMT" then
      some (days * 86400 + seconds)
    else none
  | _ => none

theorem readClock_clock (inside : seconds < 86400) : readClock (clock seconds) = some seconds := by
  have colon : isDigit 58 = false := by decide
  have parts : (clock seconds).splitOn 58 =
      [decimal02 (seconds / 3600),decimal02 (seconds / 60 % 60),decimal02 (seconds % 60)] := by
    refine List.splitOn_intercalate 58 ?_ (by simp)
    simp [decimal02_free colon]
  have ranges : seconds / 3600 < 24 ∧ seconds / 60 % 60 < 60 ∧ seconds % 60 < 60 := by omega
  have sum : seconds / 3600 * 3600 + seconds / 60 % 60 * 60 + seconds % 60 = seconds := by omega
  simp only [readClock,parts,readNat_decimal02,Option.bind_eq_bind,Option.bind_some,ranges,and_self,if_true,sum]

theorem dayName_free (inside : day < 7) : 32 ∉ dayName day ∧ 10 ∉ dayName day := by
  have all : ∀ day, day < 7 → 32 ∉ dayName day ∧ 10 ∉ dayName day := by decide
  exact all day inside

theorem monthName_free (first : 1 ≤ month) (last : month ≤ 12) :
    (32 ∉ monthName month ∧ 10 ∉ monthName month) ∧ monthNames.idxOf (monthName month) + 1 = month := by
  have all : ∀ month, month < 13 → 1 ≤ month →
      (32 ∉ monthName month ∧ 10 ∉ monthName month) ∧ monthNames.idxOf (monthName month) + 1 = month := by decide
  exact all month (Nat.lt_succ_of_le last) first

theorem clock_free (other : isDigit b = false) (different : b ≠ 58) (seconds : Nat) : b ∉ clock seconds := by
  simp [clock,List.intercalate_cons_cons,decimal02_free other,different]

theorem readDate_httpDate (time : Int) : readDate (httpDate time) = some time := by
  have space : isDigit 32 = false := by decide
  obtain ⟨⟨first,last⟩,_⟩ := dateOfDays_range (time / 86400)
  have day := (dayName_free (weekday_range (time / 86400))).1
  obtain ⟨⟨month,_⟩,index⟩ := monthName_free first last
  have parts : (httpDate time).splitOn 32 =
      [dayName (weekday (time / 86400)) ++ [44],decimalNat (dateOfDays (time / 86400)).day,
        monthName (dateOfDays (time / 86400)).month,decimal (dateOfDays (time / 86400)).year,
        clock (time % 86400).toNat,ascii "GMT"] := by
    have zone : 32 ∉ ascii "GMT" := by decide
    refine List.splitOn_intercalate 32 ?_ (by simp)
    simp [day,month,zone,decimalNat_free space,decimal_free space,clock_free space]
  have seconds : readClock (clock (time % 86400).toNat) = some (time % 86400).toNat := readClock_clock (by omega)
  have sum : time / 86400 * 86400 + ((time % 86400).toNat : Int) = time := by omega
  have days : daysOfDate ⟨(dateOfDays (time / 86400)).year,(dateOfDays (time / 86400)).month,
      (dateOfDays (time / 86400)).day⟩ = time / 86400 := daysOfDate_dateOfDays (time / 86400)
  simp only [readDate,parts,readNat_decimalNat,readInt_decimal,seconds,index,Option.bind_eq_bind,Option.bind_some,days,
    and_self,if_true,sum]

theorem httpDate_line (time : Int) : 10 ∉ httpDate time := by
  have feed : isDigit 10 = false := by decide
  have zone : 10 ∉ ascii "GMT" := by decide
  obtain ⟨⟨first,last⟩,_⟩ := dateOfDays_range (time / 86400)
  have day := (dayName_free (weekday_range (time / 86400))).2
  have month := (monthName_free first last).1.2
  simp [httpDate,List.intercalate_cons_cons,day,month,zone,decimalNat_free feed,decimal_free feed,clock_free feed]

theorem clock_length (inside : seconds < 86400) : (clock seconds).length = 8 := by
  have ranges : seconds / 3600 < 100 ∧ seconds / 60 % 60 < 100 ∧ seconds % 60 < 100 := by omega
  simp [clock,List.intercalate_cons_cons,decimal02_length ranges.1,decimal02_length ranges.2.1,decimal02_length ranges.2.2]

theorem httpDate_length (small : (dateOfDays (time / 86400)).year.natAbs < 10 ^ 10) : (httpDate time).length ≤ 36 := by
  have dayNameLength : ∀ day, day < 7 → (dayName day).length = 3 := by decide
  have monthNameLength : ∀ month, month < 13 → (monthName month).length ≤ 3 := by decide
  obtain ⟨⟨_,last⟩,_,day⟩ := dateOfDays_range (time / 86400)
  have weekday := dayNameLength _ (weekday_range (time / 86400))
  have mday : (decimalNat (dateOfDays (time / 86400)).day).length ≤ 2 := decimalNat_length (by decide) (by omega)
  have mon := monthNameLength _ (Nat.lt_succ_of_le last)
  have year := decimal_length (by decide) small
  have seconds : (clock (time % 86400).toNat).length = 8 := clock_length (by omega)
  have zone : (ascii "GMT").length = 3 := by decide
  simp only [httpDate,List.intercalate_cons_cons,List.intercalate_singleton,List.length_append,List.length_singleton,weekday,
    seconds,zone]
  omega

end NetworkEx.HttpDate
