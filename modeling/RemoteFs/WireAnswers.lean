import Mathlib.Data.Nat.Notation

/-! # Answers on the wire

The server answers with a status and a body. The client takes the body of a success for what it
asked for, and that of any other answer for an error of the server. -/
namespace WireAnswers

/-- The variants that `ApiError` and `FuseError` have in common. -/
inductive ErrorKind where
  | unauthorized
  | notFound
  | alreadyExists
  | notADirectory
  | isADirectory
  | directoryNotEmpty
  | permissionDenied
  | operationNotPermitted
  | storageFull
  | outOfMemory
  | invalidInput
  | fileTooLarge
  | unsupported
  | crossDeviceLink
  | ioError
  | textFileBusy
  | resourceBusy
  | tryAgain
  | internalError
  deriving DecidableEq, Repr

structure ApiError where
  kind : ErrorKind
  message : String
  deriving DecidableEq, Repr

inductive FuseError where
  | ofServer (kind : ErrorKind) (message : String)
  | notImplemented
  | invalidFileHandle (fh : UInt64)
  deriving DecidableEq, Repr

namespace ErrorKind

def statusCode : ErrorKind → ℕ
  | .unauthorized => 401
  | .notFound => 404
  | .alreadyExists => 409
  | .notADirectory => 400
  | .isADirectory => 400
  | .directoryNotEmpty => 409
  | .permissionDenied => 403
  | .operationNotPermitted => 403
  | .storageFull => 507
  | .outOfMemory => 507
  | .invalidInput => 400
  | .fileTooLarge => 413
  | .unsupported => 501
  | .crossDeviceLink => 501
  | .ioError => 500
  | .textFileBusy => 500
  | .resourceBusy => 503
  | .tryAgain => 503
  | .internalError => 500

def errno : ErrorKind → ℕ
  | .unauthorized => 13
  | .notFound => 2
  | .alreadyExists => 17
  | .notADirectory => 20
  | .isADirectory => 21
  | .directoryNotEmpty => 39
  | .permissionDenied => 13
  | .operationNotPermitted => 1
  | .storageFull => 28
  | .outOfMemory => 12
  | .invalidInput => 22
  | .fileTooLarge => 75
  | .unsupported => 95
  | .crossDeviceLink => 18
  | .ioError => 5
  | .textFileBusy => 26
  | .resourceBusy => 16
  | .tryAgain => 11
  | .internalError => 5

theorem statusCode_failure (k : ErrorKind) : ¬(200 ≤ k.statusCode ∧ k.statusCode < 300) := by
  cases k <;> decide

end ErrorKind

def FuseError.errno : FuseError → ℕ
  | .ofServer kind _ => kind.errno
  | .notImplemented => 38
  | .invalidFileHandle _ => 9

/-- The JSON library on both sides, where `σ` are its texts. -/
structure Serde (σ : Type) where
  writeError : ApiError → σ
  readError : σ → Option FuseError
  writeXattributes : List UInt8 → σ
  readXattributes : σ → Option (List UInt8)
  writeNames : List String → σ
  readNames : σ → Option (List String)
  length : σ → ℕ

/-- What one side has written the other one reads, an error as the variant of the same name. An
array of bytes takes four characters at most for each. -/
structure Serde.Sound {σ : Type} (serde : Serde σ) : Prop where
  error : ∀ e, serde.readError (serde.writeError e) = some (.ofServer e.kind e.message)
  xattributes : ∀ bytes, serde.readXattributes (serde.writeXattributes bytes) = some bytes
  names : ∀ names, serde.readNames (serde.writeNames names) = some names
  short : ∀ bytes, serde.length (serde.writeXattributes bytes) ≤ 4 * bytes.length + 18

inductive Payload where
  | xattributes (xattributes : List UInt8)
  | noXattributes
  | names (names : List String)
  | done
  deriving DecidableEq, Repr

inductive Expected where
  | xattributes
  | names
  | nothing
  deriving DecidableEq, Repr

inductive Body (σ : Type) where
  | json (v : σ)
  | text (s : String)
  deriving DecidableEq, Repr

structure Response (σ : Type) where
  status : ℕ
  body : Body σ
  deriving DecidableEq, Repr

/-- `message` is empty where it is the decoder's. -/
inductive NetworkError where
  | serverError (e : FuseError)
  | unexpectedResponse (message : Option String)
  deriving DecidableEq, Repr

def NetworkError.errno : NetworkError → ℕ
  | .serverError e => e.errno
  | .unexpectedResponse _ => 5

def Body.read {σ α : Type} (read : σ → Option α) : Body σ → Option α
  | .json v => read v
  | .text _ => none

section Answers

variable {σ : Type} (serde : Serde σ)

def respond : Except ApiError Payload → Response σ
  | .ok (.xattributes bytes) => ⟨200, .json (serde.writeXattributes bytes)⟩
  | .ok .noXattributes => ⟨204, .text ""⟩
  | .ok (.names names) => ⟨200, .json (serde.writeNames names)⟩
  | .ok .done => ⟨200, .text ""⟩
  | .error e => ⟨e.kind.statusCode, .json (serde.writeError e)⟩

def extract (r : Response σ) : Expected → Option Payload
  | .xattributes =>
    if r.status = 204 then some .noXattributes
    else (r.body.read serde.readXattributes).map .xattributes
  | .names => (r.body.read serde.readNames).map .names
  | .nothing => some .done

def handleResponse (r : Response σ) (expected : Expected) : Except NetworkError Payload :=
  if 200 ≤ r.status ∧ r.status < 300 then
    match extract serde r expected with
    | some p => .ok p
    | none => .error (.unexpectedResponse none)
  else
    match r.body.read serde.readError with
    | some e => .error (.serverError e)
    | none => .error (.unexpectedResponse (some "Failed to parse remote error"))

def Payload.expected : Payload → Expected
  | .xattributes _ => .xattributes
  | .noXattributes => .xattributes
  | .names _ => .names
  | .done => .nothing

variable {serde}

theorem success_read (hserde : serde.Sound) (p : Payload) :
    handleResponse serde (respond serde (.ok p)) p.expected = .ok p := by
  cases p with
  | xattributes bytes =>
    simp [handleResponse, respond, extract, Payload.expected, Body.read, hserde.xattributes]
  | noXattributes => rfl
  | names names =>
    simp [handleResponse, respond, extract, Payload.expected, Body.read, hserde.names]
  | done => rfl

/-- An error of the server is an error of the server to the client, whatever it has asked for. -/
theorem error_read (hserde : serde.Sound) (e : ApiError) (expected : Expected) :
    handleResponse serde (respond serde (.error e)) expected =
      .error (.serverError (.ofServer e.kind e.message)) := by
  have hstatus : ¬(200 ≤ (respond serde (.error e)).status ∧
      (respond serde (.error e)).status < 300) := e.kind.statusCode_failure
  rw [handleResponse, if_neg hstatus, respond, Body.read, hserde.error]

end Answers

end WireAnswers
