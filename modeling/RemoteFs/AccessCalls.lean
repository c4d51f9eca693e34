import RemoteFs.ServerAccessDecision
import RemoteFs.XattributeCalls

/-! # What may be done, asked through the mount

The mask of the kernel goes to the server as the text of a number in a query. The server reads it
back and checks its bits one after the other. The libraries between the two sides are
parameters. -/
namespace AccessCalls

open OsPaths (OsString Path components)
open PosixFileTree
open PosixTree
open ServerAccess
open ServerAccessDecision
open ServerPaths
open ServerRequests (Server)
open ServerStorage
open WireAnswers (Payload Response Serde)
open XattributeCalls
open XattributeUrls

/-! The request -/

def setUrl (baseUrl api path : String) : String :=
  baseUrl ++ "/" ++ api ++ "/" ++ urlencode path

structure OperationQuery where
  mask : String
  deriving DecidableEq, Repr

/-- What carries a request for permissions: the JSON library, the query with the mask on either
side, and the parameter that the route `/permissions/{path}` takes out of a URL. -/
structure Http (σ : Type) where
  serde : Serde σ
  writeQuery : String → String
  readQuery : String → Option OperationQuery
  permissionsPath : String → Option String

/-- A mask is read as it was written, and an absolute path that was encoded into one segment is
decoded again. -/
structure Http.Sound {σ : Type} (http : Http σ) (baseUrl : String) : Prop where
  serde : http.serde.Sound
  query : ∀ mask, http.readQuery (http.writeQuery mask) = some ⟨mask⟩
  path : ∀ path, path.toList.head? = some '/' →
    http.permissionsPath (setUrl baseUrl "permissions" path) = some path

structure PermissionsRequest where
  url : String
  query : String
  deriving DecidableEq, Repr

def access {σ : Type} (http : Http σ) (baseUrl : String)
    (send : PermissionsRequest → Response σ × Server) (s : Server) (path : OsString)
    (mask : UInt32) : Outcome × Server :=
  match toStr path with
  | some path =>
    let (response, s) :=
      send ⟨setUrl baseUrl "permissions" path, http.writeQuery mask.toNat.repr⟩
    (match WireAnswers.handleResponse http.serde response .nothing with
      | .ok _ => .ok .done
      | .error e => .error e.errno, s)
  | none => (.error 22, s)

/-! The server -/

/-- `parse` of a `u32`: digits, which may have a plus before them. -/
def parseU32 (s : List Char) : Option UInt32 :=
  let digits := if s.head? = some '+' then s.tail else s
  if digits ≠ [] ∧ digits.all Char.isDigit ∧ Nat.ofDigitChars 10 digits 0 < 2 ^ 32 then
    some (.ofNat (Nat.ofDigitChars 10 digits 0))
  else none

def OperationQuery.getMask (query : OperationQuery) : Except ApiError UInt32 :=
  match parseU32 query.mask.toList with
  | some mask => .ok mask
  | none => .error (.invalidInput "Invalid mask")

def getPermissions (fs : FileSystem) (t : Tree) (user : AuthenticatedUser) (path : String)
    (query : OperationQuery) : Except ApiError Unit := do
  let mask ← query.getMask
  if mask &&& 4 ≠ 0 then Routes.checkPermission fs t user (components path) .read
  if mask &&& 2 ≠ 0 then Routes.checkPermission fs t user (components path) .write
  if mask &&& 1 ≠ 0 then Routes.checkPermission fs t user (components path) .execute

def respond {σ : Type} (http : Http σ) (message : ApiError → String)
    (r : Except ApiError Unit) : Response σ :=
  WireAnswers.respond http.serde ((r.map fun _ => .done).mapError fun e => ⟨kindOf e, message e⟩)

def serve {σ : Type} (http : Http σ) (message : ApiError → String) (fs : FileSystem) (s : Server)
    (user : AuthenticatedUser) (r : PermissionsRequest) : Response σ × Server :=
  match http.permissionsPath r.url with
  | none => (notRouted, s)
  | some path =>
    match http.readQuery r.query with
    | none => (unread 400, s)
    | some query => (respond http message (getPermissions fs s.tree.objects user path query), s)

/-! What the answer is for -/

def asked (mask : UInt32) : List Operation :=
  (if mask &&& 4 ≠ 0 then [.read] else []) ++ (if mask &&& 2 ≠ 0 then [.write] else []) ++
    if mask &&& 1 ≠ 0 then [.execute] else []

/-- The object that a path is checked at: its own, or its parent where there is none. -/
def checkedObject (fs : FileSystem) (t : Tree) (path : Path) : Option (Path × Inode) :=
  let real := makeRealPath fs.realPath path
  match lstat t real with
  | some (_, i) => some (real, i)
  | none => real.parent.bind fun parent => (lstat t parent).map fun found => (parent, found.2)

/-- The exported root lets everyone do everything, and any other object what its bits allow. Where
nothing is asked, nothing has to be there. -/
def decision (fs : FileSystem) (t : Tree) (user : AuthenticatedUser) (path : Path)
    (mask : UInt32) : Outcome :=
  match checkedObject fs t path with
  | some (checked, i) =>
    if (asked mask).all fun op =>
        checked = makeRealPath fs.realPath [.rootDir] || permits user i op then .ok .done
    else .error 13
  | none => if asked mask = [] then .ok .done else .error 2

section Masks

variable {mask : UInt32}

theorem parseU32_repr (mask : UInt32) : parseU32 mask.toNat.repr.toList = some mask := by
  have hdigits : (Nat.toDigits 10 mask.toNat).all Char.isDigit = true :=
    List.all_eq_true.mpr fun c hc => Nat.isDigit_of_mem_toDigits (by decide) (by decide) hc
  have hplus : (Nat.toDigits 10 mask.toNat).head? ≠ some '+' := fun hhead =>
    absurd (List.all_eq_true.mp hdigits _ (List.mem_of_head? hhead)) (by decide)
  rw [parseU32, Nat.toList_repr]
  simp only [if_neg hplus, Nat.ofDigitChars_toDigits (by decide : 1 < 10) (by decide : 10 ≤ 10)]
  rw [if_pos ⟨Nat.toDigits_ne_nil, hdigits, mask.toNat_lt⟩, UInt32.ofNat_toNat]

theorem getMask_sent (mask : UInt32) : OperationQuery.getMask ⟨mask.toNat.repr⟩ = .ok mask := by
  rw [OperationQuery.getMask, parseU32_repr]

end Masks

section Decisions

variable {fs : FileSystem} {path checked : Path} {t : Tree} {i : Inode} {op : Operation}
variable {user : AuthenticatedUser} {mask : UInt32}

theorem getPermissions_asked {path : String} {query : OperationQuery}
    (h : query.getMask = .ok mask) : getPermissions fs t user path query =
      forM (asked mask) (Routes.checkPermission fs t user (components path)) := by
  rw [getPermissions, h, show (Except.ok mask : Except ApiError UInt32) = pure mask from rfl,
    pure_bind]
  by_cases hread : mask &&& 4 ≠ 0 <;> by_cases hwrite : mask &&& 2 ≠ 0 <;>
    by_cases hexecute : mask &&& 1 ≠ 0 <;>
      simp [asked, hread, hwrite, hexecute]

theorem forM_uniform {ε : Type} {check : Operation → Except ε Unit} {allowed : Operation → Bool}
    {e : ε} (h : ∀ op, check op = if allowed op then .ok () else .error e)
    (ops : List Operation) : forM ops check = if ops.all allowed then .ok () else .error e := by
  induction ops with
  | nil => rfl
  | cons op ops ih =>
    rw [List.forM_cons, h op, ih, List.all_cons]
    cases allowed op <;> rfl

theorem checkPermission_object (h : checkedObject fs t path = some (checked, i)) :
    Routes.checkPermission fs t user path op =
      if checked = makeRealPath fs.realPath [.rootDir] || permits user i op then .ok ()
      else .error (.permissionDenied "You do not have the needed permissions.") := by
  have hallowed : fs.isAllowed t user path op =
      .ok (checked = makeRealPath fs.realPath [.rootDir] || permits user i op) := by
    unfold checkedObject at h
    dsimp only at h
    split at h
    · rename_i l j hreal
      obtain ⟨rfl, rfl⟩ := Prod.mk.inj (Option.some.inj h)
      exact isAllowed_checked (.inl ⟨hreal ▸ Option.some_ne_none _, rfl⟩) hreal
    · rename_i hmissing
      obtain ⟨parent, hparent, hfound⟩ := Option.bind_eq_some_iff.mp h
      obtain ⟨⟨l, j⟩, hl, hsame⟩ := Option.map_eq_some_iff.mp hfound
      obtain ⟨rfl, rfl⟩ := Prod.mk.inj hsame
      exact isAllowed_checked (.inr ⟨hmissing, hparent⟩) hl
  rw [Routes.checkPermission, hallowed]
  cases (checked = makeRealPath fs.realPath [.rootDir] || permits user i op : Bool) <;> rfl

theorem checkPermission_missing (h : checkedObject fs t path = none) :
    Routes.checkPermission fs t user path op = .error .notFound := by
  have hallowed : fs.isAllowed t user path op = .error .notFound := by
    unfold checkedObject at h
    dsimp only at h
    split at h
    · cases h
    · rename_i hmissing
      unfold FileSystem.isAllowed
      simp only [hmissing, Option.isNone_none, if_true]
      cases hparent : (makeRealPath fs.realPath path).parent with
      | none => rfl
      | some parent =>
        rw [hparent, Option.bind_some, Option.map_eq_none_iff] at h
        simp only [bind, Except.bind, getAttributesByPath, h]
  rw [Routes.checkPermission, hallowed]
  rfl

theorem asked_object (h : checkedObject fs t path = some (checked, i)) :
    forM (asked mask) (Routes.checkPermission fs t user path) =
      if (asked mask).all fun op =>
          checked = makeRealPath fs.realPath [.rootDir] || permits user i op then .ok ()
      else .error (.permissionDenied "You do not have the needed permissions.") :=
  forM_uniform (fun _ => checkPermission_object h) _

theorem asked_missing (h : checkedObject fs t path = none) :
    forM (asked mask) (Routes.checkPermission fs t user path) =
      if asked mask = [] then .ok () else .error .notFound := by
  cases asked mask with
  | nil => rfl
  | cons op ops =>
    rw [List.forM_cons, checkPermission_missing h]
    rfl

end Decisions

section Outcomes

variable {σ : Type} {http : Http σ} {baseUrl path : String} {message : ApiError → String}
variable {fs : FileSystem} {s : Server} {user : AuthenticatedUser} {mask : UInt32}

theorem handled (hserde : http.serde.Sound) (r : Except ApiError Unit) :
    (match WireAnswers.handleResponse http.serde (respond http message r) .nothing with
      | .ok _ => .ok .done
      | .error e => .error e.errno : Outcome) =
      (r.mapError fun e => (kindOf e).errno).map fun _ => .done := by
  cases r with
  | ok u =>
    have hread : WireAnswers.handleResponse http.serde (respond http message (.ok u)) .nothing =
        .ok .done := WireAnswers.success_read hserde .done
    rw [hread]
    rfl
  | error e =>
    have hread : WireAnswers.handleResponse http.serde (respond http message (.error e)) .nothing =
        .error (.serverError (.ofServer (kindOf e) (message e))) :=
      WireAnswers.error_read hserde ⟨kindOf e, message e⟩ .nothing
    rw [hread]
    rfl

theorem access_checks (hhttp : http.Sound baseUrl) (hpath : path.toList.head? = some '/') :
    access http baseUrl (serve http message fs s user) s (.text path) mask =
      (((forM (asked mask) (Routes.checkPermission fs s.tree.objects user
        (components path))).mapError fun e => (kindOf e).errno).map fun _ => .done, s) := by
  have hserve : serve http message fs s user
      ⟨setUrl baseUrl "permissions" path, http.writeQuery mask.toNat.repr⟩ =
        (respond http message (forM (asked mask) (Routes.checkPermission fs s.tree.objects user
          (components path))), s) := by
    rw [serve, hhttp.path path hpath, hhttp.query]
    dsimp only
    rw [getPermissions_asked (getMask_sent mask)]
  rw [access, toStr]
  dsimp only
  rw [hserve]
  exact Prod.ext (handled hhttp.serde _) rfl

end Outcomes

def outcome (fs : FileSystem) (t : Tree) (user : AuthenticatedUser) (mask : UInt32) :
    OsString → Outcome
  | .text path => decision fs t user (components path) mask
  | .raw _ => .error 22

/-- Whatever the tree is, an access call is answered by the one object that its path is checked at
and by the bits that its mask asks about there, and it leaves the server as it was. A path that is
no text is not sent. -/
theorem access_outcome {σ : Type} {http : Http σ} {baseUrl : String} (hhttp : http.Sound baseUrl)
    (message : ApiError → String) (fs : FileSystem) (s : Server) (user : AuthenticatedUser)
    (path : OsString) (hpath : ∀ p, path = .text p → p.toList.head? = some '/') (mask : UInt32) :
    access http baseUrl (serve http message fs s user) s path mask =
      (outcome fs s.tree.objects user mask path, s) := by
  cases path with
  | raw bytes => rfl
  | text path =>
    rw [access_checks hhttp (hpath path rfl), outcome]
    unfold decision
    cases hobject : checkedObject fs s.tree.objects (components path) with
    | some found =>
      rw [asked_object hobject]
      dsimp only
      split <;> rfl
    | none =>
      rw [asked_missing hobject]
      dsimp only
      split <;> rfl

section Samples

def plainHttp (baseUrl : String) : Http Written where
  serde := writtenSerde
  writeQuery mask := "mask=" ++ mask
  readQuery query :=
    if query.toList.take 5 = "mask=".toList then some ⟨.ofList (query.toList.drop 5)⟩ else none
  permissionsPath url :=
    match segments baseUrl url with
    | [[], _, path] => some (decodeSegment path)
    | _ => none

theorem plainHttp_sound (baseUrl : String) : (plainHttp baseUrl).Sound baseUrl := by
  refine ⟨writtenSerde_sound, fun mask => ?_, fun path _ => ?_⟩
  · have hquery : ("mask=" ++ mask).toList = "mask=".toList ++ mask.toList := String.toList_append
    simp only [plainHttp, hquery]
    have hlength : "mask=".toList.length = 5 := by decide
    rw [if_pos (List.take_left' hlength), List.drop_left' hlength, String.ofList_toList]
  · have htarget : (setUrl baseUrl "permissions" path).toList = baseUrl.toList ++
        ([] ++ '/' :: ("permissions".toList ++ '/' :: PercentEncoding.encode
          (Utf8Lossy.utf8 path.toList))) := by
      simp [setUrl, urlencode, String.toList_append]
    have huncut := uncut_encode (Utf8Lossy.utf8 path.toList)
    have hsegments : segments baseUrl (setUrl baseUrl "permissions" path) =
        [[], "permissions".toList, PercentEncoding.encode (Utf8Lossy.utf8 path.toList)] := by
      rw [segments, htarget, if_pos (List.prefix_append _ _), ← String.length_toList,
        List.drop_left, cut_uncut ⟨by simp [huncut.1], by simp [huncut.2]⟩,
        List.splitOn_append_cons_self_of_not_mem List.not_mem_nil,
        List.splitOn_append_cons_self_of_not_mem (by decide),
        List.splitOn_eq_singleton (slash_not_mem_encode _)]
    simp only [plainHttp, hsegments, decodeSegment_encode]

theorem access_outcome_owner :
    let fs : FileSystem := ⟨absolute [.text "srv"]⟩
    let s : Server := ⟨plain, .empty _⟩
    let send := serve (plainHttp v1) (fun _ => "refused") fs s ⟨1000, 50⟩
    access (plainHttp v1) v1 send s (.text "/own") 4 = (.ok .done, s) ∧
      access (plainHttp v1) v1 send s (.text "/own") 6 = (.error 13, s) := by
  intro fs s send
  have habsolute : ∀ p, OsString.text "/own" = .text p → p.toList.head? = some '/' := by
    rintro p ⟨⟩
    rfl
  have hask := access_outcome (plainHttp_sound v1) (fun _ => "refused") fs s ⟨1000, 50⟩
    (.text "/own") habsolute
  exact ⟨(hask 4).trans (Prod.ext (by decide) rfl), (hask 6).trans (Prod.ext (by decide) rfl)⟩

end Samples

end AccessCalls
