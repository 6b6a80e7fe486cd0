import NetworkEx.PathResolution
import NetworkEx.WebServer

namespace NetworkEx.WebConfinement
open ByteStreams CText PathResolution WebServer

-- What main can be given as the root: a C string that does not end in a slash.
def RootText (root : Bytes) : Prop := 0 ∉ root ∧ root.getLast? ≠ some slash

theorem freshRoot_text (text : Bytes) : RootText (freshRoot text) := by
  constructor
  · simp [freshRoot,freshName,slash]
  · simp [freshRoot,freshName,slash,List.getLast?_cons,List.getLast?_replicate]

theorem route_get (get : request.method = ascii "GET") (routed : route world root request = some call) :
    ∀ path ∈ call.paths, path = root ++ request.page := by
  rw [route,if_pos get] at routed
  obtain ⟨page,printed,rfl⟩ := Option.map_eq_some_iff.mp routed
  obtain ⟨rfl,_⟩ := sprintf_parts printed
  intro path member
  by_cases readable : world.access (root ++ request.page)
  · simpa [Call.paths,readable] using member
  · simpa [Call.paths,readable] using member

theorem route_other (other : request.method ≠ ascii "GET") (routed : route world root request = some call) :
    call.paths = [] := by
  rw [route,if_neg other] at routed
  cases routed; rfl

def openWorld : World := ⟨fun _ => true,fun _ => .regular [],0,0⟩

-- Under every root the paths of a request stay below it exactly when it is no
-- GET or its page leads nowhere else.
theorem confinement_exact (accepted : protocolParser str = some request) :
    (∀ world root call, RootText root → route world root request = some call →
      ∀ path ∈ call.paths, Confined root path) ↔
    (request.method ≠ ascii "GET" ∨ Inside request.page) := by
  constructor
  · intro confined
    by_contra neither
    obtain ⟨get,outside⟩ := not_or.mp neither
    have get := not_not.mp get
    have short := (protocolParser_parsed accepted).page
    have fits : (freshRoot request.page ++ request.page).length < MAXLINE := by
      simp only [freshRoot,freshName,List.length_append,List.length_cons,List.length_replicate,MAXLINE]
      omega
    have routed : route openWorld (freshRoot request.page) request = some
        ⟨[freshRoot request.page ++ request.page],some (freshRoot request.page ++ request.page),request.httpVer,
          ascii "200 OK"⟩ := by
      rw [route,if_pos get,sprintf_fits fits]; rfl
    exact outside_escapes outside (confined _ _ _ (freshRoot_text request.page) routed _ List.mem_cons_self)
  · intro safe world root call _ routed path member
    rcases safe with other | inside
    · rw [route_other other routed] at member; cases member
    · by_cases get : request.method = ascii "GET"
      · rw [route_get get routed path member]
        exact inside_confined inside root
      · rw [route_other get routed] at member; cases member

def passwdRequest : Bytes := ascii "GET /../etc/passwd HTTP/1.1\r\n\r\n" ++ [0]

theorem confinement_exact_index :
    (∀ world root call, RootText root → route world root ⟨ascii "GET",ascii "/index.html",ascii "HTTP/1.1"⟩ = some call →
      ∀ path ∈ call.paths, Confined root path) ↔
    (ascii "GET" ≠ ascii "GET" ∨ Inside (ascii "/index.html")) := by
  have accepted : protocolParser (ascii "GET /index.html HTTP/1.1\r\n\r\n" ++ [0]) =
      some ⟨ascii "GET",ascii "/index.html",ascii "HTTP/1.1"⟩ := by decide
  exact confinement_exact accepted

theorem parent_page_escapes :
    RootText (ascii "/srv") ∧
    ((protocolParser passwdRequest).bind (route openWorld (ascii "/srv"))).bind Call.filename =
      some (ascii "/srv/../etc/passwd") ∧
    resolve (ascii "/srv/../etc/passwd") = resolve (ascii "/etc/passwd") ∧
    ¬ Confined (ascii "/srv") (ascii "/srv/../etc/passwd") := by
  refine ⟨⟨by decide,by decide⟩,by decide,by decide,by decide⟩

end NetworkEx.WebConfinement
