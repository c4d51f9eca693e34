import RemoteFs.ServerExchange
import RemoteFs.ServerRequests
import RemoteFs.WireAnswers
import RemoteFs.XattributeUrls

/-! # Extended attributes through the mount

A call of the kernel becomes a request, the request reaches the handler of its route as text, and
the answer comes back as a reply or an error number. The JSON library and the URL parser that lie
between are parameters. -/
namespace XattributeCalls

open OsPaths (OsString components)
open PosixFileTree (FileTree)
open ServerRequests (Server)
open ServerStorage (AuthenticatedUser FileSystem Operation)
open ServerXattributes (AttrMap Xattributes attrs)
open WireAnswers
open XattributeUrls (Plain nameRoute namesRoute xAttributeUrl xAttributesUrl)

/-- What lies between the two sides: the JSON library, and what becomes of a URL before the server
routes it. -/
structure Libraries (σ : Type) where
  serde : Serde σ
  receive : String → String

/-- A segment with nothing that the URL parser takes out or reads as something else. -/
structure Spelled (name : String) : Prop where
  kept : ∀ c ∈ name.toList, c ≠ '\\' ∧ c ≠ '\t' ∧ c ≠ '\n' ∧ c ≠ '\r'
  ended : ∀ c ∈ name.toList.getLast?, ' ' < c
  named : name ≠ "." ∧ name ≠ ".."

/-- The parser leaves the segments of such a URL, or escapes characters in them. -/
structure Libraries.Sound {σ : Type} (libraries : Libraries σ) (baseUrl : String) : Prop where
  serde : libraries.serde.Sound
  name : ∀ path name, '/' ∈ path.toList → Plain name → Spelled name →
    nameRoute baseUrl (libraries.receive (xAttributeUrl baseUrl path name)) =
      nameRoute baseUrl (xAttributeUrl baseUrl path name)
  names : ∀ path, '/' ∈ path.toList →
    nameRoute baseUrl (libraries.receive (xAttributesUrl baseUrl path)) =
        nameRoute baseUrl (xAttributesUrl baseUrl path) ∧
      namesRoute baseUrl (libraries.receive (xAttributesUrl baseUrl path)) =
        namesRoute baseUrl (xAttributesUrl baseUrl path)

/-! The server -/

inductive Sent (σ : Type) where
  | get (url : String)
  | put (url : String) (body : σ)
  | delete (url : String)
  deriving DecidableEq, Repr

def kindOf : ServerStorage.ApiError → ErrorKind
  | .ioError => .ioError
  | .notFound => .notFound
  | .alreadyExists => .alreadyExists
  | .permissionDenied _ => .permissionDenied
  | .directoryNotEmpty => .directoryNotEmpty
  | .invalidInput _ => .invalidInput
  | .internalError _ => .internalError

/-- The limit of `web::Json`, in bytes. -/
def jsonLimit : ℕ := 2097152

/-- What the extractor answers is no JSON. -/
def unread {σ : Type} (status : ℕ) : Response σ := ⟨status, .text ""⟩

def notRouted {σ : Type} : Response σ := ⟨400, .text "Route not found"⟩

section Handlers

variable {σ : Type} (libraries : Libraries σ) (message : ServerStorage.ApiError → String)
variable (fs : FileSystem)

def answer (r : Except ServerStorage.ApiError Payload) : Response σ :=
  respond libraries.serde (r.mapError fun e => ⟨kindOf e, message e⟩)

def getXAttributes (s : Server) (user : AuthenticatedUser) (path name : String) :
    Except ServerStorage.ApiError Payload := do
  ServerStorage.Routes.checkPermission fs s.tree.objects user (components path) .read
  match (ServerXattributes.getXAttributes s.xattributes path name).1 with
  | .ok (some attr) => .ok (.xattributes attr)
  | .ok none => .ok .noXattributes
  | .error e => .error (ServerRequests.ofDatabase e)

def listXAttributes (s : Server) (user : AuthenticatedUser) (path : String) :
    Except ServerStorage.ApiError Payload := do
  ServerStorage.Routes.checkPermission fs s.tree.objects user (components path) .read
  match (ServerXattributes.listXAttributes s.xattributes path).1 with
  | .ok names => .ok (.names names)
  | .error e => .error (ServerRequests.ofDatabase e)

def finished (a : ServerRequests.Answer) : Response σ × Server :=
  (answer libraries message (a.1.map fun _ => .done), a.2)

/-- What the server makes of a request, whose body is read before its handler is called. -/
def serve (s : Server) (user : AuthenticatedUser) (baseUrl : String) :
    Sent σ → Response σ × Server
  | .get url =>
    let url := libraries.receive url
    match nameRoute baseUrl url, namesRoute baseUrl url with
    | some (path, name), _ => (answer libraries message (getXAttributes fs s user path name), s)
    | none, some path => (answer libraries message (listXAttributes fs s user path), s)
    | none, none => (notRouted, s)
  | .put url body =>
    match nameRoute baseUrl (libraries.receive url) with
    | none => (notRouted, s)
    | some (path, name) =>
      if jsonLimit < libraries.serde.length body then (unread 413, s)
      else
        match libraries.serde.readXattributes body with
        | none => (unread 400, s)
        | some xattributes => finished libraries message
            (ServerRequests.setXAttributes fs s user path name xattributes)
  | .delete url =>
    match nameRoute baseUrl (libraries.receive url) with
    | some (path, name) =>
      finished libraries message (ServerRequests.deleteXAttributes fs s user path name)
    | none => (notRouted, s)

end Handlers

/-! The mount -/

structure Mount where
  baseUrl : String
  xattributesEnabled : Bool
  deriving DecidableEq, Repr

inductive Call where
  | getxattr (path name : OsString) (size : UInt32)
  | setxattr (path name : OsString) (value : List UInt8) (flags position : UInt32)
  | listxattr (path : OsString) (size : UInt32)
  | removexattr (path name : OsString)
  deriving DecidableEq, Repr

inductive Reply where
  | size (n : UInt32)
  | data (bytes : List UInt8)
  | done
  deriving DecidableEq, Repr

abbrev Outcome := Except ℕ Reply

/-- The size that the kernel has room for is zero where it asks for the size. -/
def fit (bytes : List UInt8) (size : UInt32) : Outcome :=
  if size = 0 then .ok (.size (UInt32.ofNat bytes.length))
  else if size < UInt32.ofNat bytes.length then .error 34
  else .ok (.data bytes)

def toStr : OsString → Option String
  | .text s => some s
  | .raw _ => none

def nameList (names : List String) : List UInt8 := names.flatMap fun n => n.toUTF8.toList ++ [0]

section Calls

variable {σ : Type} (m : Mount) (serde : Serde σ) (send : Sent σ → Response σ × Server)
variable (s : Server)

def exchange (r : Sent σ) (expected : Expected) (read : Payload → Outcome) : Outcome × Server :=
  let (response, s) := send r
  (match handleResponse serde response expected with
    | .ok p => read p
    | .error e => .error e.errno, s)

def getxattr (path name : OsString) (size : UInt32) : Outcome × Server :=
  if m.xattributesEnabled then
    match toStr name, toStr path with
    | some name, some path =>
      exchange serde send (.get (xAttributeUrl m.baseUrl path name)) .xattributes fun
        | .xattributes xattr => fit xattr size
        | _ => .error 61
    | _, _ => (.error 22, s)
  else (.error 95, s)

/-- The file system takes no notice of the flags and the position. -/
def setxattr (path name : OsString) (value : List UInt8) (_flags _position : UInt32) :
    Outcome × Server :=
  if m.xattributesEnabled then
    match toStr name, toStr path with
    | some name, some path =>
      exchange serde send (.put (xAttributeUrl m.baseUrl path name)
        (serde.writeXattributes value)) .nothing
        fun _ => .ok .done
    | _, _ => (.error 22, s)
  else (.error 95, s)

def listxattr (path : OsString) (size : UInt32) : Outcome × Server :=
  if m.xattributesEnabled then
    match toStr path with
    | some path =>
      exchange serde send (.get (xAttributesUrl m.baseUrl path)) .names fun
        | .names names => fit (nameList names) size
        | _ => .error 5
    | none => (.error 22, s)
  else (.error 95, s)

def removexattr (path name : OsString) : Outcome × Server :=
  if m.xattributesEnabled then
    match toStr name, toStr path with
    | some name, some path =>
      exchange serde send (.delete (xAttributeUrl m.baseUrl path name)) .nothing fun _ => .ok .done
    | _, _ => (.error 22, s)
  else (.error 95, s)

def Call.run : Call → Outcome × Server
  | getxattr path name size => XattributeCalls.getxattr m serde send s path name size
  | setxattr path name value flags position =>
    XattributeCalls.setxattr m serde send s path name value flags position
  | listxattr path size => XattributeCalls.listxattr m serde send s path size
  | removexattr path name => XattributeCalls.removexattr m serde send s path name

end Calls

/-! What the calls are for -/

inductive Ask where
  | get (path name : String) (size : UInt32)
  | set (path name : String) (value : List UInt8)
  | list (path : String) (size : UInt32)
  | remove (path name : String)
  deriving DecidableEq, Repr

def Call.ask : Call → Option Ask
  | getxattr path name size => do some (.get (← toStr path) (← toStr name) size)
  | setxattr path name value _ _ => do some (.set (← toStr path) (← toStr name) value)
  | listxattr path size => do some (.list (← toStr path) size)
  | removexattr path name => do some (.remove (← toStr path) (← toStr name))

namespace Ask

def path : Ask → String
  | get path _ _ | set path _ _ | list path _ | remove path _ => path

def name : Ask → Option String
  | get _ name _ | set _ name _ | remove _ name => some name
  | list _ _ => none

def value : Ask → List UInt8
  | set _ _ value => value
  | get _ _ _ | list _ _ | remove _ _ => []

def operation : Ask → Operation
  | get _ _ _ | list _ _ => .read
  | set _ _ _ | remove _ _ => .write

/-- A set of an attribute that is there leaves it what it is. -/
def next (a : AttrMap) : Ask → AttrMap
  | set path name value => if a path name = none then a.put path name (some value) else a
  | remove path name => a.put path name none
  | get _ _ _ | list _ _ => a

def Says (a : AttrMap) : Ask → Outcome → Prop
  | get path name size, r => r = (a path name).elim (.error 61) fun v => fit v size
  | list path size, r => ∃ names : List String, names.Nodup ∧ names.Pairwise (· ≤ ·) ∧
      (∀ name, name ∈ names ↔ a path name ≠ none) ∧ r = fit (nameList names) size
  | set _ _ _, r | remove _ _, r => r = .ok .done

end Ask

structure Turn where
  tree : FileTree
  user : AuthenticatedUser
  call : Call

namespace Turn

variable {σ : Type} (m : Mount) (libraries : Libraries σ)
variable (message : ServerStorage.ApiError → String) (fs : FileSystem)

def run (s : Server) (x : Turn) : Outcome × Server :=
  let s := { s with tree := x.tree }
  x.call.run m libraries.serde
    (XattributeCalls.serve libraries message fs s x.user m.baseUrl) s

def granted (x : Turn) : Except ℕ Ask :=
  if m.xattributesEnabled then
    match x.call.ask with
    | none => .error 22
    | some ask =>
      match ServerStorage.Routes.checkPermission fs x.tree.objects x.user (components ask.path)
          ask.operation with
      | .ok () => .ok ask
      | .error e => .error (kindOf e).errno
  else .error 95

def Answered (a : AttrMap) (x : Turn) (r : Outcome) : Prop :=
  match x.granted m fs with
  | .ok ask => ask.Says a r
  | .error n => r = .error n

def next (a : AttrMap) (x : Turn) : AttrMap :=
  match x.granted m fs with
  | .ok ask => ask.next a
  | .error _ => a

/-- The paths of the kernel are absolute and its values at most 64 KiB long, and the name is one
that its URL keeps. -/
def Addressed (x : Turn) : Prop :=
  ∀ ask, x.call.ask = some ask →
    '/' ∈ ask.path.toList ∧ ask.value.length ≤ 65536 ∧
      ∀ name, ask.name = some name → name ≠ "" ∧ Plain name ∧ Spelled name

end Turn

section Exchanges

variable {σ : Type} {libraries : Libraries σ} {message : ServerStorage.ApiError → String}
variable {fs : FileSystem} {s : Server} {user : AuthenticatedUser} {baseUrl path name : String}
variable {e : ServerStorage.ApiError} {send : Sent σ → Response σ × Server} {s' : Server}
variable {r : Sent σ} {read : Payload → Outcome} {value : List UInt8}

theorem exchange_ok {p : Payload} (hserde : libraries.serde.Sound)
    (h : send r = (answer libraries message (.ok p), s')) :
    exchange libraries.serde send r p.expected read = (read p, s') := by
  have hread : handleResponse libraries.serde (answer libraries message (.ok p)) p.expected =
      .ok p := success_read hserde p
  rw [exchange, h]
  dsimp only
  rw [hread]

theorem exchange_error {expected : Expected} (hserde : libraries.serde.Sound)
    (h : send r = (answer libraries message (.error e), s')) :
    exchange libraries.serde send r expected read = (.error (kindOf e).errno, s') := by
  have hread : handleResponse libraries.serde (answer libraries message (.error e)) expected =
      .error (.serverError (.ofServer (kindOf e) (message e))) :=
    error_read hserde ⟨kindOf e, message e⟩ expected
  rw [exchange, h]
  dsimp only
  rw [hread]
  rfl

variable (hlib : libraries.Sound baseUrl) (hpath : '/' ∈ path.toList) (hname : name ≠ "")
variable (hplain : Plain name) (hspelled : Spelled name)

include hpath in
theorem path_ne_empty : path ≠ "" := by
  rintro rfl
  cases hpath

include hlib hpath hname hplain hspelled in
theorem nameRoute_received :
    nameRoute baseUrl (libraries.receive (xAttributeUrl baseUrl path name)) = some (path, name) :=
  (hlib.name path name hpath hplain hspelled).trans
    (XattributeUrls.nameRoute_plain (path_ne_empty hpath) hname hplain)

include hlib hpath hname hplain hspelled in
theorem serve_get :
    serve libraries message fs s user baseUrl (.get (xAttributeUrl baseUrl path name)) =
      (answer libraries message (getXAttributes fs s user path name), s) := by
  rw [serve, nameRoute_received hlib hpath hname hplain hspelled]

include hlib hpath hname hplain hspelled in
theorem serve_delete :
    serve libraries message fs s user baseUrl (.delete (xAttributeUrl baseUrl path name)) =
      finished libraries message (ServerRequests.deleteXAttributes fs s user path name) := by
  rw [serve, nameRoute_received hlib hpath hname hplain hspelled]

include hlib hpath hname hplain hspelled in
/-- The bytes arrive as they are. -/
theorem serve_put (hvalue : value.length ≤ 65536) :
    serve libraries message fs s user baseUrl (.put (xAttributeUrl baseUrl path name)
      (libraries.serde.writeXattributes value)) =
    finished libraries message (ServerRequests.setXAttributes fs s user path name value) := by
  have hshort := hlib.serde.short value
  have hlimit : ¬jsonLimit < libraries.serde.length (libraries.serde.writeXattributes value) := by
    rw [jsonLimit]
    omega
  rw [serve, nameRoute_received hlib hpath hname hplain hspelled]
  dsimp only
  rw [if_neg hlimit, hlib.serde.xattributes]

include hlib hpath in
theorem serve_list :
    serve libraries message fs s user baseUrl (.get (xAttributesUrl baseUrl path)) =
      (answer libraries message (listXAttributes fs s user path), s) := by
  have hnone : nameRoute baseUrl (xAttributesUrl baseUrl path) = none := by
    rw [nameRoute, XattributeUrls.segments_names]
  obtain ⟨hname, hnames⟩ := hlib.names path hpath
  rw [serve, hname, hnone, hnames, XattributeUrls.namesRoute_carried (path_ne_empty hpath)]

end Exchanges

section Granted

variable {σ : Type} {libraries : Libraries σ} {m : Mount}
variable {message : ServerStorage.ApiError → String} {fs : FileSystem} {s : Server}
variable {user : AuthenticatedUser} {path name : String} {e : ServerStorage.ApiError}
variable {size : UInt32} {value : List UInt8}

def permission (fs : FileSystem) (s : Server) (user : AuthenticatedUser) (path : String)
    (op : Operation) : Except ServerStorage.ApiError Unit :=
  ServerStorage.Routes.checkPermission fs s.tree.objects user (components path) op

theorem getXAttributes_ok (h : permission fs s user path .read = .ok ()) :
    getXAttributes fs s user path name =
      .ok ((attrs s.xattributes path name).elim .noXattributes .xattributes) := by
  have hvalue : (ServerXattributes.getXAttributes s.xattributes path name).1 =
      .ok (attrs s.xattributes path name) := rfl
  rw [permission] at h
  rw [getXAttributes, h, hvalue]
  cases attrs s.xattributes path name <;> rfl

theorem getXAttributes_error (h : permission fs s user path .read = .error e) :
    getXAttributes fs s user path name = .error e := by
  rw [permission] at h
  rw [getXAttributes, h]
  rfl

theorem listXAttributes_ok (h : permission fs s user path .read = .ok ()) :
    listXAttributes fs s user path = .ok (.names
      (((s.xattributes.select (ServerXattributes.atPath path)).map
        ServerXattributes.Row.name).insertionSort (· ≤ ·))) := by
  rw [permission] at h
  rw [listXAttributes, h]
  rfl

theorem listXAttributes_error (h : permission fs s user path .read = .error e) :
    listXAttributes fs s user path = .error e := by
  rw [permission] at h
  rw [listXAttributes, h]
  rfl

theorem finished_checked {next : ServerRequests.Answer} {x : Xattributes}
    (h : permission fs s user path .write = .ok ())
    (hnext : next = ServerRequests.thenTable s (.ok (), x)) :
    finished libraries message (ServerRequests.checked fs s user (components path) next) =
      (answer libraries message (.ok .done), { s with xattributes := x }) := by
  rw [permission] at h
  rw [ServerRequests.checked, h, hnext]
  rfl

theorem finished_refused {next : ServerRequests.Answer}
    (h : permission fs s user path .write = .error e) :
    finished libraries message (ServerRequests.checked fs s user (components path) next) =
      (answer libraries message (.error e), s) := by
  rw [permission] at h
  rw [ServerRequests.checked, h]
  rfl

def allowed (permission : Except ServerStorage.ApiError Unit) (s : Server)
    (done : Outcome × Server) : Outcome × Server :=
  match permission with
  | .ok () => done
  | .error e => (.error (kindOf e).errno, s)

section Served

variable (hlib : libraries.Sound m.baseUrl) (hm : m.xattributesEnabled = true)
variable (hpath : '/' ∈ path.toList) (hname : name ≠ "") (hplain : Plain name)
variable (hspelled : Spelled name)

include hlib hm hpath hname hplain hspelled in
theorem getxattr_eq :
    getxattr m libraries.serde (serve libraries message fs s user m.baseUrl) s (.text path)
        (.text name) size =
      allowed (permission fs s user path .read) s
        ((attrs s.xattributes path name).elim (.error 61) fun v => fit v size, s) := by
  have hserved : serve libraries message fs s user m.baseUrl
      (.get (xAttributeUrl m.baseUrl path name)) =
        (answer libraries message (getXAttributes fs s user path name), s) :=
    serve_get hlib hpath hname hplain hspelled
  rw [getxattr, if_pos hm]
  dsimp only [toStr]
  cases hperm : permission fs s user path .read with
  | error e =>
    rw [getXAttributes_error hperm] at hserved
    exact exchange_error hlib.serde hserved
  | ok u =>
    rw [getXAttributes_ok hperm] at hserved
    cases hvalue : attrs s.xattributes path name with
    | none =>
      rw [hvalue] at hserved
      exact exchange_ok (p := .noXattributes) hlib.serde hserved
    | some v =>
      rw [hvalue] at hserved
      exact exchange_ok (p := .xattributes v) hlib.serde hserved

include hlib hm hpath hname hplain hspelled in
theorem setxattr_eq (flags position : UInt32) (hvalue : value.length ≤ 65536) :
    setxattr m libraries.serde (serve libraries message fs s user m.baseUrl) s (.text path)
        (.text name) value flags position =
      allowed (permission fs s user path .write) s (.ok .done, { s with
        xattributes := (ServerXattributes.setXAttributes s.xattributes path name value).2 }) := by
  have hserved : serve libraries message fs s user m.baseUrl
      (.put (xAttributeUrl m.baseUrl path name) (libraries.serde.writeXattributes value)) =
        finished libraries message (ServerRequests.setXAttributes fs s user path name value) :=
    serve_put hlib hpath hname hplain hspelled hvalue
  rw [setxattr, if_pos hm]
  dsimp only [toStr]
  cases hperm : permission fs s user path .write with
  | error e => exact exchange_error hlib.serde (hserved.trans (finished_refused hperm))
  | ok u =>
    have hset : ServerXattributes.setXAttributes s.xattributes path name value =
        (.ok (), (ServerXattributes.setXAttributes s.xattributes path name value).2) :=
      Prod.ext (ServerXattributes.set_spec s.xattributes path name value).1 rfl
    exact exchange_ok (p := .done) hlib.serde
      (hserved.trans (finished_checked hperm (congrArg _ hset)))

include hlib hm hpath hname hplain hspelled in
theorem removexattr_eq :
    removexattr m libraries.serde (serve libraries message fs s user m.baseUrl) s (.text path)
        (.text name) =
      allowed (permission fs s user path .write) s (.ok .done, { s with
        xattributes := s.xattributes.delete (ServerXattributes.keyed path name) }) := by
  have hserved : serve libraries message fs s user m.baseUrl
      (.delete (xAttributeUrl m.baseUrl path name)) =
        finished libraries message (ServerRequests.deleteXAttributes fs s user path name) :=
    serve_delete hlib hpath hname hplain hspelled
  rw [removexattr, if_pos hm]
  dsimp only [toStr]
  cases hperm : permission fs s user path .write with
  | error e => exact exchange_error hlib.serde (hserved.trans (finished_refused hperm))
  | ok u =>
    exact exchange_ok (p := .done) hlib.serde (hserved.trans (finished_checked hperm rfl))

include hlib hm hpath in
theorem listxattr_eq :
    listxattr m libraries.serde (serve libraries message fs s user m.baseUrl) s (.text path) size =
      allowed (permission fs s user path .read) s
        (fit (nameList (((s.xattributes.select (ServerXattributes.atPath path)).map
          ServerXattributes.Row.name).insertionSort (· ≤ ·))) size, s) := by
  have hserved : serve libraries message fs s user m.baseUrl
      (.get (xAttributesUrl m.baseUrl path)) =
        (answer libraries message (listXAttributes fs s user path), s) := serve_list hlib hpath
  rw [listxattr, if_pos hm]
  dsimp only [toStr]
  cases hperm : permission fs s user path .read with
  | error e =>
    rw [listXAttributes_error hperm] at hserved
    exact exchange_error hlib.serde hserved
  | ok u =>
    rw [listXAttributes_ok hperm] at hserved
    exact exchange_ok (p := .names _) hlib.serde hserved

end Served

end Granted

/-! Runs of calls -/

def Rooted (a : AttrMap) : Prop := ∀ path name, a path name ≠ none → '/' ∈ path.toList

/-- In every state the table stands for the map, and the next call is answered by it. -/
def Refines {σ : Type} (m : Mount) (libraries : Libraries σ)
    (message : ServerStorage.ApiError → String) (fs : FileSystem) (s : Server) (a : AttrMap) :
    List Turn → Prop
  | [] => attrs s.xattributes = a
  | x :: run => attrs s.xattributes = a ∧ x.Answered m fs a (x.run m libraries message fs s).1 ∧
      Refines m libraries message fs (x.run m libraries message fs s).2 (x.next m fs a) run

section Turns

variable {σ : Type} {libraries : Libraries σ} {m : Mount}
variable {message : ServerStorage.ApiError → String} {fs : FileSystem} {s : Server} {x : Turn}
variable {ask : Ask} {a : AttrMap}

theorem Rooted.next (h : Rooted a) (hslash : '/' ∈ ask.path.toList) : Rooted (ask.next a) := by
  have hput : ∀ path name v, '/' ∈ path.toList → Rooted (a.put path name v) := by
    intro path name v hpath path' name' hne
    unfold AttrMap.put at hne
    split at hne
    · rename_i hkey
      exact hkey.1 ▸ hpath
    · exact h path' name' hne
  cases ask with
  | get path name size => exact h
  | list path size => exact h
  | set path name value =>
    change Rooted (if a path name = none then a.put path name (some value) else a)
    split
    · exact hput path name _ hslash
    · exact h
  | remove path name => exact hput path name _ hslash

theorem granted_of_ask (hm : m.xattributesEnabled = true) (hask : x.call.ask = some ask) :
    x.granted m fs =
      ((permission fs { s with tree := x.tree } x.user ask.path ask.operation).mapError
        fun e => (kindOf e).errno).map fun _ => ask := by
  rw [Turn.granted, if_pos hm, hask, permission]
  dsimp only
  split
  · rename_i h
    rw [h]
    rfl
  · rename_i h
    rw [h]
    rfl

theorem turn_of_allowed {r : Outcome} {s' : Server} (hm : m.xattributesEnabled = true)
    (hask : x.call.ask = some ask)
    (hrun : x.run m libraries message fs s =
      allowed (permission fs { s with tree := x.tree } x.user ask.path ask.operation)
        { s with tree := x.tree } (r, s'))
    (hreply : ask.Says (attrs s.xattributes) r)
    (hnext : attrs s'.xattributes = ask.next (attrs s.xattributes)) :
    x.Answered m fs (attrs s.xattributes) (x.run m libraries message fs s).1 ∧
      attrs (x.run m libraries message fs s).2.xattributes = x.next m fs (attrs s.xattributes) := by
  rw [Turn.Answered, Turn.next, granted_of_ask (s := s) hm hask, hrun]
  cases permission fs { s with tree := x.tree } x.user ask.path ask.operation with
  | ok u => exact ⟨hreply, hnext⟩
  | error e => exact ⟨rfl, rfl⟩

theorem turn_of_error {n : ℕ} (hgranted : x.granted m fs = .error n)
    (hrun : x.run m libraries message fs s = (.error n, { s with tree := x.tree })) :
    x.Answered m fs (attrs s.xattributes) (x.run m libraries message fs s).1 ∧
      attrs (x.run m libraries message fs s).2.xattributes = x.next m fs (attrs s.xattributes) := by
  rw [Turn.Answered, Turn.next, hgranted, hrun]
  exact ⟨rfl, rfl⟩

/-- A path or a name that is no text is refused before anything is sent. -/
theorem run_raw (hm : m.xattributesEnabled = true) (hask : x.call.ask = none) :
    x.run m libraries message fs s = (.error 22, { s with tree := x.tree }) := by
  obtain ⟨tree, user, call⟩ := x
  cases call with
  | listxattr path size =>
    cases path with
    | text path => cases hask
    | raw bytes =>
      dsimp only [Turn.run, Call.run]
      rw [listxattr, if_pos hm]
      rfl
  | getxattr path name size =>
    cases path <;> cases name
    · cases hask
    all_goals
      dsimp only [Turn.run, Call.run]
      rw [getxattr, if_pos hm]
      rfl
  | setxattr path name value flags position =>
    cases path <;> cases name
    · cases hask
    all_goals
      dsimp only [Turn.run, Call.run]
      rw [setxattr, if_pos hm]
      rfl
  | removexattr path name =>
    cases path <;> cases name
    · cases hask
    all_goals
      dsimp only [Turn.run, Call.run]
      rw [removexattr, if_pos hm]
      rfl

theorem run_disabled (hm : ¬m.xattributesEnabled = true) :
    x.run m libraries message fs s = (.error 95, { s with tree := x.tree }) := by
  obtain ⟨tree, user, call⟩ := x
  cases call <;> dsimp only [Turn.run, Call.run]
  · rw [getxattr, if_neg hm]
  · rw [setxattr, if_neg hm]
  · rw [listxattr, if_neg hm]
  · rw [removexattr, if_neg hm]

theorem attrs_set {path name : String} (value : List UInt8) (hrooted : Rooted (attrs s.xattributes))
    (hname : Plain name) :
    attrs (ServerXattributes.setXAttributes s.xattributes path name value).2 =
      (Ask.set path name value).next (attrs s.xattributes) := by
  have hswap : attrs s.xattributes name path = none := by
    by_contra hne
    exact hname.slash (hrooted name path hne)
  rw [(ServerXattributes.set_spec s.xattributes path name value).2, if_pos hswap]
  rfl

theorem turn_of_ask (hlib : libraries.Sound m.baseUrl) (hm : m.xattributesEnabled = true)
    (hask : x.call.ask = some ask) (hrooted : Rooted (attrs s.xattributes))
    (hslash : '/' ∈ ask.path.toList) (hvalue : ask.value.length ≤ 65536)
    (hname : ∀ name, ask.name = some name → name ≠ "" ∧ Plain name ∧ Spelled name) :
    x.Answered m fs (attrs s.xattributes) (x.run m libraries message fs s).1 ∧
      attrs (x.run m libraries message fs s).2.xattributes = x.next m fs (attrs s.xattributes) := by
  obtain ⟨tree, user, call⟩ := x
  cases call with
  | getxattr path name size =>
    cases path <;> cases name <;> cases hask
    obtain ⟨hne, hplain, hspelled⟩ := hname _ rfl
    exact turn_of_allowed hm rfl (getxattr_eq hlib hm hslash hne hplain hspelled) rfl rfl
  | setxattr path name value flags position =>
    cases path <;> cases name <;> cases hask
    obtain ⟨hne, hplain, hspelled⟩ := hname _ rfl
    exact turn_of_allowed hm rfl
      (setxattr_eq hlib hm hslash hne hplain hspelled flags position hvalue) rfl
      (attrs_set value hrooted hplain)
  | listxattr path size =>
    cases path <;> cases hask
    exact turn_of_allowed hm rfl (listxattr_eq hlib hm hslash)
      ⟨_, ServerXattributes.names_nodup _ _, List.pairwise_insertionSort _ _,
        fun _ => ServerXattributes.mem_names, rfl⟩ rfl
  | removexattr path name =>
    cases path <;> cases name <;> cases hask
    obtain ⟨hne, hplain, hspelled⟩ := hname _ rfl
    exact turn_of_allowed hm rfl (removexattr_eq hlib hm hslash hne hplain hspelled) rfl
      ServerXattributes.attrs_delete_keyed

/-- One call is answered by the map, and does to the table what it does to the map. -/
theorem turn_refines (hlib : libraries.Sound m.baseUrl) (hrooted : Rooted (attrs s.xattributes))
    (haddressed : x.Addressed) :
    x.Answered m fs (attrs s.xattributes) (x.run m libraries message fs s).1 ∧
      attrs (x.run m libraries message fs s).2.xattributes = x.next m fs (attrs s.xattributes) := by
  by_cases hm : m.xattributesEnabled = true
  · cases hask : x.call.ask with
    | none =>
      refine turn_of_error (n := 22) ?_ ?_
      · rw [Turn.granted, if_pos hm, hask]
      · exact run_raw hm hask
    | some ask =>
      obtain ⟨hslash, hvalue, hname⟩ := haddressed ask hask
      exact turn_of_ask hlib hm hask hrooted hslash hvalue hname
  · exact turn_of_error (by rw [Turn.granted, if_neg hm]) (run_disabled hm)

theorem Rooted.turn (hrooted : Rooted a) (haddressed : x.Addressed) :
    Rooted (x.next m fs a) := by
  unfold Turn.next
  cases hgranted : x.granted m fs with
  | error n => exact hrooted
  | ok ask =>
    refine hrooted.next (haddressed ask ?_).1
    unfold Turn.granted at hgranted
    split at hgranted
    · split at hgranted
      · cases hgranted
      · rename_i ask' hask
        split at hgranted
        · rw [hask, Except.ok.inj hgranted]
        · cases hgranted
    · cases hgranted

end Turns

section Samples

open ServerExchange (samples exported)

inductive Written where
  | error (e : ApiError)
  | xattributes (bytes : List UInt8)
  | names (names : List String)

def arrayLength : List UInt8 → ℕ
  | [] => 17
  | b :: bytes => b.toNat.repr.length + 1 + arrayLength bytes

def Written.length : Written → ℕ
  | xattributes bytes => arrayLength bytes
  | error _ | names _ => 0

def writtenSerde : Serde Written where
  writeError := .error
  readError
    | .error e => some (.ofServer e.kind e.message)
    | _ => none
  writeXattributes := .xattributes
  readXattributes
    | .xattributes bytes => some bytes
    | _ => none
  writeNames := .names
  readNames
    | .names names => some names
    | _ => none
  length := Written.length

theorem writtenSerde_sound : writtenSerde.Sound := by
  refine ⟨fun _ => rfl, fun _ => rfl, fun _ => rfl, fun bytes => ?_⟩
  have hdigits : ∀ b : UInt8, b.toNat.repr.length ≤ 3 := fun b =>
    (Nat.length_repr_le_iff (by decide)).mpr (b.toNat_lt.trans (by decide))
  induction bytes with
  | nil => decide
  | cons b bytes ih =>
    have hb := hdigits b
    simp only [writtenSerde, Written.length, arrayLength, List.length_cons] at ih ⊢
    omega

theorem libraries_sound (baseUrl : String) :
    (⟨writtenSerde, id⟩ : Libraries Written).Sound baseUrl :=
  ⟨writtenSerde_sound, fun _ _ _ _ _ => rfl, fun _ _ => ⟨rfl, rfl⟩⟩

theorem spelled_user_a : Spelled "user.a" := by
  have hlist : "user.a".toList = ['u', 's', 'e', 'r', '.', 'a'] := by decide
  refine ⟨?_, ?_, by decide⟩
  · rw [hlist]
    simp
  · rw [hlist]
    rintro c ⟨⟩
    decide

def turnExample (call : Call) : Turn := ⟨samples, ⟨7, 7⟩, call⟩

def turnsExample : List Turn :=
  [turnExample (.setxattr (.text "/a") (.text "user.a") [1, 2] 0 0),
    turnExample (.setxattr (.text "/a") (.text "user.a") [3] 0 0),
    turnExample (.getxattr (.text "/a") (.text "user.a") 2)]

end Samples

end XattributeCalls
