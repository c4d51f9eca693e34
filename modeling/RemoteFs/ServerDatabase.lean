import RemoteFs.SqlTable
import Mathlib.Algebra.Group.Nat.Defs

/-! # The server's database calls

A statement answers or fails with an error of the driver; the caller wraps the error's text. An
integer column is decoded into the caller's type and the decoding fails out of its range. -/
namespace ServerDatabase

open SqlTable

inductive SqlError where
  | decode
  | constraint
  | syntaxError
  deriving DecidableEq, Repr

/-- The text of an error. What a library says stays abstract, between what `format!` puts around
it. -/
inductive Message where
  | text (s : String)
  | sql (before : String) (e : SqlError) (after : String)
  | jwt
  deriving DecidableEq, Repr

inductive DatabaseError where
  | queryError (m : Message)
  | other (m : Message)
  deriving DecidableEq, Repr

def DatabaseError.query (e : SqlError) : DatabaseError := .queryError (.sql "" e "")

def decodeU8 (n : ℕ) : Except SqlError ℕ := if n < 2 ^ 8 then .ok n else .error .decode

def decodeU32 (n : ℕ) : Except SqlError ℕ := if n < 2 ^ 32 then .ok n else .error .decode

theorem decodeU8_le_one {n : ℕ} (h : n ≤ 1) : decodeU8 n = .ok n := if_pos (by omega)

theorem decodeU32_le_one {n : ℕ} (h : n ≤ 1) : decodeU32 n = .ok n := if_pos (by omega)

/-- A statement that writes: its table where it succeeds, the old one where a key is violated. -/
def execute {ρ : Type} {conflict : ρ → ρ → Prop} (t : Table conflict)
    (written : Option (Table conflict)) : Except SqlError Unit × Table conflict :=
  match written with
  | some t' => (.ok (), t')
  | none => (.error .constraint, t)

end ServerDatabase
