import NetworkEx.HeaderText
import NetworkEx.HttpDate
import NetworkEx.WebServer

namespace NetworkEx.WebHead
open ByteStreams CText CivilCalendar HeaderText HttpDate WebServer

theorem daytable_name (inside : day < 7) : cstring (daytable.drop (day * 4)) = some (dayName day) := by
  have all : ∀ day, day < 7 → cstring (daytable.drop (day * 4)) = some (dayName day) := by decide
  exact all day inside

theorem montable_name (first : 1 ≤ month) (last : month ≤ 12) :
    cstring (montable.drop ((month - 1) * 4)) = some (monthName month) := by
  have all : ∀ month, month < 13 → 1 ≤ month → cstring (montable.drop ((month - 1) * 4)) = some (monthName month) := by
    decide
  exact all month (Nat.lt_succ_of_le last) first

-- The local date is of a year that an int holds, counted from 1900 and whole.
def Dated (world : World) : Prop :=
  -2 ^ 31 ≤ (dateOfDays ((world.time + world.offset) / 86400)).year - 1900 ∧
    (dateOfDays ((world.time + world.offset) / 86400)).year < 2 ^ 31

theorem int_iff : WebServer.int n = some m ↔ (-2 ^ 31 ≤ n ∧ n < 2 ^ 31) ∧ n = m := by
  unfold WebServer.int
  split
  · rename_i fits
    rw [Option.some.injEq]
    exact ⟨fun same => ⟨fits,same⟩,And.right⟩
  · rename_i outside
    exact iff_of_false (by simp) (fun both => outside both.1)

theorem dateStr_iff :
    (∃ tm, localtime world = some tm ∧ dateStr tm = some text) ↔ Dated world ∧ text = httpDate (world.time + world.offset) := by
  obtain ⟨⟨first,last⟩,_⟩ := dateOfDays_range ((world.time + world.offset) / 86400)
  have day := daytable_name (weekday_range ((world.time + world.offset) / 86400))
  have literals : ascii ", " = [44,32] ∧ ascii " " = [32] ∧ ascii ":" = [58] ∧ ascii " GMT" = 32 :: ascii "GMT" := by decide
  have natural : ∀ n : Nat, decimal n = decimalNat n := fun _ => rfl
  constructor
  · intro found
    obtain ⟨tm,here,printed⟩ := found
    simp only [localtime,Option.bind_eq_bind,Option.bind_eq_some_iff,int_iff] at here
    obtain ⟨year,⟨⟨low,_⟩,rfl⟩,result⟩ := here
    cases result
    simp only [dateStr,day,montable_name first last,Option.bind_eq_bind,Option.bind_some,Option.bind_eq_some_iff,int_iff,
      Int.sub_add_cancel] at printed
    obtain ⟨year,⟨⟨_,high⟩,rfl⟩,printed⟩ := printed
    refine ⟨⟨low,high⟩,?_⟩
    rw [(sprintf_parts printed).1]
    simp [httpDate,clock,List.intercalate_cons_cons,literals,natural]
  · intro inside
    obtain ⟨⟨low,high⟩,rfl⟩ := inside
    have sinceEpoch : WebServer.int ((dateOfDays ((world.time + world.offset) / 86400)).year - 1900) =
        some ((dateOfDays ((world.time + world.offset) / 86400)).year - 1900) := int_iff.mpr ⟨⟨low,by omega⟩,rfl⟩
    have whole : WebServer.int (dateOfDays ((world.time + world.offset) / 86400)).year =
        some (dateOfDays ((world.time + world.offset) / 86400)).year := int_iff.mpr ⟨⟨by omega,high⟩,rfl⟩
    have short : (httpDate (world.time + world.offset)).length < 80 :=
      Nat.lt_of_le_of_lt (httpDate_length (by omega)) (by decide)
    refine ⟨_,by rw [localtime,sinceEpoch]; rfl,?_⟩
    simp only [dateStr,day,montable_name first last,Option.bind_eq_bind,Option.bind_some,Int.sub_add_cancel,whole]
    rw [← sprintf_fits short]
    simp [httpDate,clock,List.intercalate_cons_cons,literals,natural]

def written (httpVer date codemsg : Bytes) (contentLength : Int) : Head where
  version := httpVer
  status := date
  fields := [(ascii "Date",codemsg),(ascii "Server",SERVER),(ascii "Content-Length",decimal contentLength),
    (ascii "Connection",ascii "close"),(ascii "Content-Type",ascii "text/html; charset=UTF8")]

theorem header_text (httpVer date codemsg : Bytes) (contentLength : Int) :
    header httpVer date codemsg contentLength = sprintf HEADERSIZE (written httpVer date codemsg contentLength).text := by
  have literals : ascii " " = [space] ∧ ascii "\nDate: " = feed :: (ascii "Date" ++ [colon,space]) ∧
      ascii "\nServer: " = feed :: (ascii "Server" ++ [colon,space]) ∧
      ascii "\nContent-Length: " = feed :: (ascii "Content-Length" ++ [colon,space]) ∧
      ascii "\nConnection: close\nContent-Type: text/html; charset=UTF8\n\n" =
        feed :: (ascii "Connection" ++ colon :: space :: (ascii "close" ++ feed :: (ascii "Content-Type" ++
          colon :: space :: (ascii "text/html; charset=UTF8" ++ [feed,feed])))) := by decide
  simp only [header,literals]
  simp [written,Head.text,Head.lines,Head.first,fieldLine,List.intercalate_cons_cons]

theorem written_clean (version : space ∉ httpVer ∧ feed ∉ httpVer) (status : feed ∉ date) (text : feed ∉ codemsg)
    (contentLength : Int) : Head.Clean (written httpVer date codemsg contentLength) := by
  have number : feed ∉ decimal contentLength := decimal_free (by decide) (by decide) contentLength
  have names : colon ∉ ascii "Date" ∧ colon ∉ ascii "Server" ∧ colon ∉ ascii "Content-Length" ∧
      colon ∉ ascii "Connection" ∧ colon ∉ ascii "Content-Type" := by decide
  have fixed : feed ∉ ascii "Date" ∧ feed ∉ ascii "Server" ∧ feed ∉ ascii "Content-Length" ∧ feed ∉ ascii "Connection" ∧
      feed ∉ ascii "Content-Type" ∧ feed ∉ SERVER ∧ feed ∉ ascii "close" ∧ feed ∉ ascii "text/html; charset=UTF8" := by decide
  refine ⟨version,status,?_,?_⟩
  · simp [written,names]
  · simp [written,fixed,number,text]

theorem headerBlock_parts (built : headerBlock world httpVer codemsg contentLength = some block) :
    Dated world ∧ block = (written httpVer (httpDate (world.time + world.offset)) codemsg contentLength).text := by
  simp only [headerBlock,Option.bind_eq_bind,Option.bind_eq_some_iff,header_text] at built
  obtain ⟨tm,here,date,printed,built⟩ := built
  obtain ⟨dated,rfl⟩ := dateStr_iff.mp ⟨tm,here,printed⟩
  exact ⟨dated,(sprintf_parts built).1⟩

theorem headerBlock_built (dated : Dated world) (version : httpVer.length < 80) (text : codemsg.length < 80)
    (number : contentLength.natAbs < 10 ^ 10) : ∃ block, headerBlock world httpVer codemsg contentLength = some block := by
  have day : (httpDate (world.time + world.offset)).length ≤ 36 := by
    obtain ⟨low,high⟩ := dated
    exact httpDate_length (by omega)
  obtain ⟨tm,here,printed⟩ := dateStr_iff.mpr ⟨dated,rfl⟩
  have digits : (decimal contentLength).length ≤ 11 := decimal_length (by decide) number
  have literals : (ascii " ").length = 1 ∧ (ascii "\nDate: ").length = 7 ∧ (ascii "\nServer: ").length = 9 ∧
      SERVER.length = 20 ∧ (ascii "\nContent-Length: ").length = 17 ∧
      (ascii "\nConnection: close\nContent-Type: text/html; charset=UTF8\n\n").length = 58 := by decide
  simp only [headerBlock,here,printed,Option.bind_eq_bind,Option.bind_some,header]
  refine ⟨_,sprintf_fits ?_⟩
  simp only [List.length_append,literals,HEADERSIZE]
  omega

theorem readHead_block (version : space ∉ httpVer ∧ feed ∉ httpVer) (text : feed ∉ codemsg)
    (built : headerBlock world httpVer codemsg contentLength = some block) (body : Bytes) :
    readHead (block ++ body) =
      some (written httpVer (httpDate (world.time + world.offset)) codemsg contentLength,body) := by
  rw [(headerBlock_parts built).2]
  exact readHead_text (written_clean version (httpDate_line _) text contentLength) body

theorem written_fields (httpVer date codemsg : Bytes) (contentLength : Int) :
    (written httpVer date codemsg contentLength).field (ascii "Date") = some codemsg ∧
    (written httpVer date codemsg contentLength).field (ascii "Server") = some SERVER ∧
    (written httpVer date codemsg contentLength).field (ascii "Content-Length") = some (decimal contentLength) := by
  refine ⟨rfl,rfl,rfl⟩

-- The block gives back what sendpage was called with, the time of the call in
-- GMT and the server's name.
def ReadsBack (block httpVer codemsg : Bytes) (time contentLength : Int) : Prop :=
  ∃ head, readHead block = some (head,[]) ∧ head.version = httpVer ∧ head.status = codemsg ∧
    (head.field (ascii "Date")).bind readDate = some time ∧ head.field (ascii "Server") = some SERVER ∧
    (head.field (ascii "Content-Length")).bind readInt = some contentLength

-- It reads back where the two texts that stand in each other's place are the
-- same, which takes a local time that is GMT. The number is that of an int.
theorem head_exact (version : (space ∉ httpVer ∧ feed ∉ httpVer) ∧ httpVer.length < 80)
    (number : -2 ^ 31 ≤ contentLength ∧ contentLength < 2 ^ 31) :
    (∃ block, headerBlock world httpVer codemsg contentLength = some block ∧
      ReadsBack block httpVer codemsg world.time contentLength) ↔
      world.offset = 0 ∧ codemsg = httpDate world.time ∧ Dated world := by
  obtain ⟨date,server,length⟩ := written_fields httpVer (httpDate (world.time + world.offset)) codemsg contentLength
  constructor
  · intro heads
    obtain ⟨block,built,head,found,_,status,denotes,_,_⟩ := heads
    have text := readHead_status found
    rw [status] at text
    have read := readHead_block version.1 text built []
    rw [List.append_nil,found] at read
    cases read
    rw [date,Option.bind_some] at denotes
    have same : httpDate (world.time + world.offset) = codemsg := status
    rw [← same,readDate_httpDate] at denotes
    have noOffset : world.offset = 0 := by
      have equal := Option.some.inj denotes
      omega
    refine ⟨noOffset,?_,(headerBlock_parts built).1⟩
    rw [← same,noOffset,Int.add_zero]
  · intro dated
    obtain ⟨noOffset,rfl,dated⟩ := dated
    have short : (httpDate world.time).length ≤ 36 := by
      obtain ⟨low,high⟩ := dated
      rw [noOffset,Int.add_zero] at low high
      exact httpDate_length (by omega)
    obtain ⟨block,built⟩ := headerBlock_built dated version.2 (Nat.lt_of_le_of_lt short (by decide))
      (by omega : contentLength.natAbs < 10 ^ 10)
    have read := readHead_block version.1 (httpDate_line world.time) built []
    rw [List.append_nil] at read
    refine ⟨block,built,_,read,rfl,?_,?_,server,?_⟩
    · rw [noOffset,Int.add_zero]; rfl
    · rw [date,Option.bind_some,readDate_httpDate]
    · rw [length,Option.bind_some,readInt_decimal]

def gmtWorld : World := ⟨fun _ => true,fun _ => .regular [],0,0⟩

theorem head_exact_ok : (∃ block, headerBlock gmtWorld (ascii "HTTP/1.1") (ascii "200 OK") 5 = some block ∧
      ReadsBack block (ascii "HTTP/1.1") (ascii "200 OK") gmtWorld.time 5) ↔
    gmtWorld.offset = 0 ∧ ascii "200 OK" = httpDate gmtWorld.time ∧ Dated gmtWorld :=
  head_exact (by decide) (by decide)

theorem ok_status_misplaced : ∃ block, headerBlock gmtWorld (ascii "HTTP/1.1") (ascii "200 OK") 5 = some block ∧
    ¬ ReadsBack block (ascii "HTTP/1.1") (ascii "200 OK") gmtWorld.time 5 := by
  have built : (headerBlock gmtWorld (ascii "HTTP/1.1") (ascii "200 OK") 5).isSome := by decide +kernel
  obtain ⟨block,built⟩ := Option.isSome_iff_exists.mp built
  refine ⟨block,built,?_⟩
  intro headed
  obtain ⟨head,found,_,status,_⟩ := headed
  have read := readHead_block (by decide) (by decide) built []
  rw [List.append_nil] at read
  cases read.symm.trans found
  have different : httpDate 0 ≠ ascii "200 OK" := by decide +kernel
  exact different status

end NetworkEx.WebHead
