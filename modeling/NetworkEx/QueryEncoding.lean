import NetworkEx.FileAgreement

namespace NetworkEx.QueryEncoding
open ByteStreams CText WireWords FileProtocol FileAgreement

inductive Opt where
  | h
  | l
  | i (optarg : Bytes)
  | u (optarg : Bytes)
  | d (optarg : Bytes)
  | other
  deriving DecidableEq

structure Settings where
  ipaddr : Bytes
  commandType : BitVec 32
  fname : Bytes
  optflag : Bool
  deriving DecidableEq

def unset : Settings := ⟨[],0,[],false⟩

inductive Front where
  | quit (ret : Int)
  | asks (settings : Settings)
  deriving DecidableEq

-- main up to its connect; none where a sprintf runs over ipaddr or fname.
def front (settings : Settings) : List Opt → Option Front
  | [] =>
    if settings.ipaddr = [] then some (.quit 0)
    else if settings.fname = [] ∧ settings.optflag then some (.quit 0)
    else some (.asks settings)
  | .h :: _ => some (.quit 1)
  | .other :: _ => some (.quit 1)
  | .l :: rest => front {settings with commandType := Q_LIST} rest
  | .i optarg :: rest => (sprintf 36 optarg).bind fun ipaddr => front {settings with ipaddr := ipaddr} rest
  | .u optarg :: rest =>
    (sprintf 80 optarg).bind fun fname =>
      front {settings with commandType := Q_UPLOAD,fname := fname,optflag := true} rest
  | .d optarg :: rest =>
    (sprintf 80 optarg).bind fun fname =>
      front {settings with commandType := Q_DOWNLOAD,fname := fname,optflag := true} rest

def Opt.clean : Opt → Prop
  | .i optarg | .u optarg | .d optarg => 0 ∉ optarg
  | _ => True

-- What the two handlers of the client send first is taken by proc, received
-- whole, as the same command with the same name.
def RoundTrip (settings : Settings) : Prop :=
  (settings.commandType = Q_UPLOAD → ∀ reads, ∃ ret sent, upload true settings.fname querySize reads = some (ret,sent) ∧
    ∀ stack, stack.length = querySize →
      request (overlay (sent.take querySize) stack) = .upload (some settings.fname)) ∧
  (settings.commandType = Q_DOWNLOAD → ∀ old recvs, ∃ ret query after,
    download (some old) settings.fname querySize recvs = some (ret,query,after) ∧
    ∀ stack, stack.length = querySize → request (overlay query stack) = .download (some settings.fname))

structure Filled (settings : Settings) : Prop where
  clean : 0 ∉ settings.fname
  fits : settings.fname.length < 80
  flagged : settings.commandType = Q_UPLOAD ∨ settings.commandType = Q_DOWNLOAD → settings.optflag = true

theorem unset_filled : Filled unset := ⟨by decide,by decide,by decide⟩

theorem name_filled {optarg fname : Bytes} (clean : 0 ∉ optarg) (printed : sprintf 80 optarg = some fname)
    (settings : Settings) (commandType : BitVec 32) :
    Filled {settings with commandType := commandType,fname := fname,optflag := true} := by
  obtain ⟨rfl,fits⟩ := sprintf_parts printed
  exact ⟨clean,fits,fun _ => rfl⟩

theorem front_filled (valid : Filled settings) (argv : ∀ opt ∈ opts, opt.clean) (ended : front settings opts = some (.asks asked)) :
    Filled asked ∧ (asked.optflag = true → asked.fname ≠ []) := by
  induction opts generalizing settings with
  | nil =>
    unfold front at ended
    split at ended
    · cases ended
    · split at ended
      · cases ended
      · rename_i named
        cases ended
        exact ⟨valid,fun flag empty => named ⟨empty,flag⟩⟩
  | cons opt rest ih =>
    have later : ∀ opt ∈ rest, opt.clean := fun opt member => argv opt (List.mem_cons_of_mem _ member)
    have here : opt.clean := argv opt List.mem_cons_self
    unfold front at ended
    cases opt with
    | h => cases ended
    | other => cases ended
    | l =>
      have other : ¬ (Q_LIST = Q_UPLOAD ∨ Q_LIST = Q_DOWNLOAD) := by decide
      have listing : Filled {settings with commandType := Q_LIST} :=
        ⟨valid.clean,valid.fits,fun asks => absurd asks other⟩
      exact ih listing later ended
    | i optarg =>
      obtain ⟨ipaddr,_,onward⟩ := Option.bind_eq_some_iff.mp ended
      have addressed : Filled {settings with ipaddr := ipaddr} := ⟨valid.clean,valid.fits,valid.flagged⟩
      exact ih addressed later onward
    | u optarg =>
      obtain ⟨fname,printed,onward⟩ := Option.bind_eq_some_iff.mp ended
      exact ih (name_filled here printed settings Q_UPLOAD) later onward
    | d optarg =>
      obtain ⟨fname,printed,onward⟩ := Option.bind_eq_some_iff.mp ended
      exact ih (name_filled here printed settings Q_DOWNLOAD) later onward

theorem front_reaches (named : name ≠ []) (fits : name.length < 80) :
    front unset [.i (ascii "127.0.0.1"),.u name] = some (.asks ⟨ascii "127.0.0.1",Q_UPLOAD,name,true⟩) ∧
    front unset [.i (ascii "127.0.0.1"),.d name] = some (.asks ⟨ascii "127.0.0.1",Q_DOWNLOAD,name,true⟩) := by
  have address : sprintf 36 (ascii "127.0.0.1") = some (ascii "127.0.0.1") := by decide
  have set : ascii "127.0.0.1" ≠ [] := by decide
  constructor <;> simp [front,address,set,sprintf_fits fits,named]

theorem upload_sends (filled : fillQuery Q_UPLOAD file = some query) (reads : List (Piece MAXLINE × Int)) :
    upload true file querySize reads = some ((sendLoop reads).1,query ++ (sendLoop reads).2) := by
  have asked : querySize ≠ 0 := by decide
  have whole : query.take querySize = query := by rw [← fillQuery_length filled,List.take_length]
  simp [upload,filled,asked,whole]

theorem download_sends (filled : fillQuery Q_DOWNLOAD file = some query) (old : Bytes) (recvs : List (Piece MAXLINE × Int)) :
    download (some old) file querySize recvs = some ((recvLoop old 0 recvs).1,query,some (recvLoop old 0 recvs).2) := by
  have asked : querySize ≠ 0 := by decide
  have whole : query.take querySize = query := by rw [← fillQuery_length filled,List.take_length]
  simp [download,filled,asked,whole]

theorem fillQuery_isSome (command : BitVec 32) (file : Bytes) : (fillQuery command file).isSome ↔ file.length < nameField := by
  unfold fillQuery
  split <;> simp [*]

theorem upload_roundTrip (clean : 0 ∉ file) (short : file.length < nameField) (reads : List (Piece MAXLINE × Int)) :
    ∃ ret sent, upload true file querySize reads = some (ret,sent) ∧
      ∀ stack, stack.length = querySize → request (overlay (sent.take querySize) stack) = .upload (some file) := by
  obtain ⟨query,filled⟩ := Option.isSome_iff_exists.mp ((fillQuery_isSome Q_UPLOAD file).mpr short)
  have length := fillQuery_length filled
  refine ⟨_,_,upload_sends filled reads,?_⟩
  intro stack sized
  rw [List.take_left' length,queried_whole length stack sized,request_upload filled clean]

theorem download_roundTrip (clean : 0 ∉ file) (short : file.length < nameField) (old : Bytes)
    (recvs : List (Piece MAXLINE × Int)) :
    ∃ ret query after, download (some old) file querySize recvs = some (ret,query,after) ∧
      ∀ stack, stack.length = querySize → request (overlay query stack) = .download (some file) := by
  obtain ⟨query,filled⟩ := Option.isSome_iff_exists.mp ((fillQuery_isSome Q_DOWNLOAD file).mpr short)
  have length := fillQuery_length filled
  refine ⟨_,_,_,download_sends filled old recvs,?_⟩
  intro stack sized
  rw [queried_whole length stack sized,request_download filled clean]

-- The client stores names of up to 79 bytes; the wire has room for 63.
theorem encoding_exact (argv : ∀ opt ∈ opts, opt.clean) (ended : front unset opts = some (.asks settings))
    (asks : settings.commandType = Q_UPLOAD ∨ settings.commandType = Q_DOWNLOAD) :
    settings.fname ≠ [] ∧ settings.fname.length < 80 ∧ (RoundTrip settings ↔ settings.fname.length < nameField) := by
  obtain ⟨valid,named⟩ := front_filled unset_filled argv ended
  refine ⟨named (valid.flagged asks),valid.fits,?_⟩
  constructor
  · intro trip
    rcases asks with uploads | downloads
    · obtain ⟨ret,sent,returned,_⟩ := trip.1 uploads []
      rw [← fillQuery_isSome Q_UPLOAD]
      cases filled : fillQuery Q_UPLOAD settings.fname with
      | none => simp [upload,filled] at returned
      | some query => rfl
    · obtain ⟨ret,query,after,returned,_⟩ := trip.2 downloads [] []
      rw [← fillQuery_isSome Q_DOWNLOAD]
      cases filled : fillQuery Q_DOWNLOAD settings.fname with
      | none => simp [download,filled] at returned
      | some query => rfl
  · intro short
    exact ⟨fun _ reads => upload_roundTrip valid.clean short reads,
      fun _ old recvs => download_roundTrip valid.clean short old recvs⟩

def longName : Bytes := List.replicate 64 97

theorem long_name_overruns :
    front unset [.i (ascii "127.0.0.1"),.u longName] = some (.asks ⟨ascii "127.0.0.1",Q_UPLOAD,longName,true⟩) ∧
    upload true longName querySize [] = none ∧
    ¬ RoundTrip ⟨ascii "127.0.0.1",Q_UPLOAD,longName,true⟩ := by
  have overrun : upload true longName querySize [] = none := by decide
  refine ⟨(front_reaches (by decide) (by decide)).1,overrun,?_⟩
  intro trip
  obtain ⟨ret,sent,returned,_⟩ := trip.1 rfl []
  rw [overrun] at returned
  cases returned

theorem encoding_exact_upload :
    (ascii "a" ≠ [] ∧ (ascii "a").length < 80 ∧
      (RoundTrip ⟨ascii "127.0.0.1",Q_UPLOAD,ascii "a",true⟩ ↔ (ascii "a").length < nameField)) := by
  have argv : ∀ opt ∈ [Opt.i (ascii "127.0.0.1"),Opt.u (ascii "a")], opt.clean := by
    intro opt member
    rcases List.mem_cons.mp member with rfl | member
    · exact (by decide : 0 ∉ ascii "127.0.0.1")
    · rw [List.mem_singleton.mp member]
      exact (by decide : 0 ∉ ascii "a")
  exact encoding_exact argv (front_reaches (by decide) (by decide)).1 (.inl rfl)

end NetworkEx.QueryEncoding
