import RemoteFs.OsPaths
import RemoteFs.Utf16

/-! # Names and link targets from Windows

Names come as UTF-16 text with backslashes. The target of a new link comes in a buffer of bytes
that says where in it the target is. -/
namespace WindowsNames

open OsPaths
open Utf16

inductive FspError where
  | invalidInput
  | ntstatus (code : UInt32)
  deriving DecidableEq, Repr

/-- A buffer is refused, or it is read in a way that has no defined outcome. -/
inductive BufferFailure where
  | fsp (e : FspError)
  | undefined
  deriving DecidableEq, Repr

def statusInvalidParameter : UInt32 := 0xC000000D

def ioReparseTagSymlink : ℕ := 0xA000000C

/-! Little-endian numbers -/

def byte (buf : List UInt8) (i : ℕ) : ℕ := (buf.getD i 0).toNat

def u16At (buf : List UInt8) (i : ℕ) : ℕ := byte buf i + 256 * byte buf (i + 1)

def u32At (buf : List UInt8) (i : ℕ) : ℕ := u16At buf i + 65536 * u16At buf (i + 2)

def u16Bytes (n : ℕ) : List UInt8 := [.ofNat n, .ofNat (n / 256)]

/-- The bytes as units; one that is left over is dropped. -/
def units : List UInt8 → List UInt16
  | low :: high :: bytes => .ofNat (low.toNat + 256 * high.toNat) :: units bytes
  | _ => []

def unitBytes (us : List UInt16) : List UInt8 := us.flatMap fun u => u16Bytes u.toNat

def pathBufferStart : ℕ := 20

/-- The buffer begins at an even address. Its bytes are read as units in place, which takes an
even address too. -/
def parseSymlinkTarget (extraBuffer : Option (List UInt8)) : Except BufferFailure String :=
  match extraBuffer with
  | none => .error (.fsp (.ntstatus statusInvalidParameter))
  | some buf =>
    if buf.length < 20 then .error (.fsp .invalidInput)
    else if u32At buf 0 ≠ ioReparseTagSymlink then .error (.fsp .invalidInput)
    else
      let printNameLength := u16At buf 14
      let start := pathBufferStart + u16At buf 12
      if buf.length < start + printNameLength then .error (.fsp .invalidInput)
      else if start % 2 ≠ 0 then .error .undefined
      else
        let slice := (buf.drop start).take printNameLength
        .ok (.ofList (decodeLossy (units slice)))

def slash (c : Char) : Char := if c = '\\' then '/' else c

def winfspPathToPathbuf (name : List UInt16) : Except FspError String :=
  match decode name with
  | none => .error .invalidInput
  | some s =>
    let s := s.map slash
    if s = [] ∨ s = ['/'] then .ok "/"
    else if s.head? = some '/' then .ok (.ofList s)
    else .ok (.ofList ('/' :: s))

/-- The buffer holds these units where its header says: behind the 20 bytes of the header and as
many bytes, an even number, as it says come before. -/
structure Holds (buf : List UInt8) (us : List UInt16) (header before after : List UInt8) :
    Prop where
  whole : buf = header ++ before ++ unitBytes us ++ after
  header_length : header.length = pathBufferStart
  tag : u32At header 0 = ioReparseTagSymlink
  offset : u16At header 12 = before.length
  even : before.length % 2 = 0
  units_length : u16At header 14 / 2 = us.length
  room : u16At header 14 ≤ 2 * us.length + after.length

section Buffers

variable {buf header before after : List UInt8} {us : List UInt16} {n : ℕ}

theorem unit_bytes (u : UInt16) :
    UInt16.ofNat ((UInt8.ofNat u.toNat).toNat + 256 * (UInt8.ofNat (u.toNat / 256)).toNat) = u := by
  have hu := u.toNat_lt
  rw [UInt8.toNat_ofNat', UInt8.toNat_ofNat',
    show u.toNat % 2 ^ 8 + 256 * (u.toNat / 256 % 2 ^ 8) = u.toNat by omega, UInt16.ofNat_toNat]

theorem units_unitBytes (us : List UInt16) (bytes : List UInt8) :
    units (unitBytes us ++ bytes) = us ++ units bytes := by
  induction us with
  | nil => rfl
  | cons u us ih =>
    simp only [unitBytes, List.flatMap_cons, u16Bytes, List.cons_append, List.nil_append] at ih ⊢
    rw [units, ih, unit_bytes]

theorem length_unitBytes (us : List UInt16) : (unitBytes us).length = 2 * us.length := by
  induction us with
  | nil => rfl
  | cons u us ih =>
    simp only [unitBytes, List.flatMap_cons, List.length_append, List.length_cons] at ih ⊢
    rw [ih]
    simp only [u16Bytes, List.length_cons, List.length_nil]
    omega

theorem unitBytes_units : ∀ bytes : List UInt8,
    unitBytes (units bytes) = bytes.take (2 * (bytes.length / 2))
  | [] => rfl
  | [b] => by
    have hnone : 2 * ([b].length / 2) = 0 := by simp
    rw [hnone]
    rfl
  | low :: high :: bytes => by
    have hrest := unitBytes_units bytes
    have hlow := low.toNat_lt
    have hhigh := high.toNat_lt
    have hsum : low.toNat + 256 * high.toNat < 2 ^ 16 := by omega
    have hlength : 2 * ((low :: high :: bytes).length / 2) = 2 * (bytes.length / 2) + 2 := by
      simp only [List.length_cons]
      omega
    rw [hlength, units, unitBytes, List.flatMap_cons, List.take_succ_cons, List.take_succ_cons,
      ← hrest, u16Bytes, UInt16.toNat_ofNat', Nat.mod_eq_of_lt hsum]
    have hfirst : UInt8.ofNat (low.toNat + 256 * high.toNat) = low := by
      apply UInt8.toNat_inj.mp
      rw [UInt8.toNat_ofNat']
      omega
    have hsecond : UInt8.ofNat ((low.toNat + 256 * high.toNat) / 256) = high := by
      apply UInt8.toNat_inj.mp
      rw [UInt8.toNat_ofNat']
      omega
    rw [hfirst, hsecond]
    rfl

theorem length_units : ∀ bytes : List UInt8, (units bytes).length = bytes.length / 2
  | [] => rfl
  | [_] => by simp [units]
  | _ :: _ :: bytes => by
    rw [units, List.length_cons, length_units bytes, List.length_cons, List.length_cons]
    omega

theorem byte_append {i : ℕ} (h : i < header.length) : byte (header ++ buf) i = byte header i := by
  simp only [byte, List.getD_eq_getElem?_getD, List.getElem?_append_left h]

theorem u16At_append {i : ℕ} (h : i + 1 < header.length) :
    u16At (header ++ buf) i = u16At header i := by
  rw [u16At, u16At, byte_append h, byte_append (Nat.lt_of_succ_lt h)]

theorem u32At_append {i : ℕ} (h : i + 3 < header.length) :
    u32At (header ++ buf) i = u32At header i := by
  rw [u32At, u32At, u16At_append h, u16At_append (Nat.lt_of_succ_lt (Nat.lt_of_succ_lt h))]

/-- A byte that is left over behind the units is no unit. -/
theorem units_take (h : n / 2 = us.length) :
    units ((unitBytes us ++ after).take n) = us := by
  have hlength := length_unitBytes us
  have hsplit : (unitBytes us ++ after).take n =
      unitBytes us ++ after.take (n - 2 * us.length) := by
    rw [List.take_append, hlength, List.take_of_length_le (by omega)]
  have hrest : units (after.take (n - 2 * us.length)) = [] := by
    rw [← List.length_eq_zero_iff, length_units, List.length_take]
    omega
  rw [hsplit, units_unitBytes, hrest, List.append_nil]

theorem parseSymlinkTarget_of_holds (h : Holds buf us header before after) :
    parseSymlinkTarget (some buf) = .ok (.ofList (decodeLossy us)) := by
  obtain ⟨rfl, hheader, htag, hoffset, heven, hunits, hroom⟩ := h
  unfold pathBufferStart at hheader
  have hassoc : header ++ before ++ unitBytes us ++ after =
      header ++ (before ++ (unitBytes us ++ after)) := by simp only [List.append_assoc]
  have hlength : (header ++ (before ++ (unitBytes us ++ after))).length =
      20 + before.length + 2 * us.length + after.length := by
    simp only [List.length_append, length_unitBytes, hheader]
    omega
  have hslice : (header ++ (before ++ (unitBytes us ++ after))).drop (20 + before.length) =
      unitBytes us ++ after := by
    rw [← hheader, ← List.drop_drop, List.drop_left, List.drop_left]
  rw [hassoc]
  unfold parseSymlinkTarget pathBufferStart
  dsimp only
  rw [u32At_append (by omega), u16At_append (by omega), u16At_append (by omega), hoffset,
    if_neg (by omega), if_neg (not_not.mpr htag), if_neg (by omega), if_neg (by omega), hslice,
    units_take hunits]

theorem holds_of_parseSymlinkTarget {t : String}
    (h : parseSymlinkTarget (some buf) = .ok t) :
    ∃ us header before after, Holds buf us header before after ∧ t = .ofList (decodeLossy us) := by
  unfold parseSymlinkTarget pathBufferStart at h
  dsimp only at h
  split at h
  · cases h
  rename_i hlong
  split at h
  · cases h
  rename_i htag
  split at h
  · cases h
  rename_i hroom
  split at h
  · cases h
  rename_i heven
  have hsplit : buf.take 20 ++ buf.drop 20 = buf := List.take_append_drop 20 buf
  have hheader : (buf.take 20).length = 20 := by
    rw [List.length_take]
    omega
  have h12 : u16At (buf.take 20) 12 = u16At buf 12 := by
    conv_rhs => rw [← hsplit]
    exact (u16At_append (by omega)).symm
  have h14 : u16At (buf.take 20) 14 = u16At buf 14 := by
    conv_rhs => rw [← hsplit]
    exact (u16At_append (by omega)).symm
  have h0 : u32At (buf.take 20) 0 = u32At buf 0 := by
    conv_rhs => rw [← hsplit]
    exact (u32At_append (by omega)).symm
  generalize u16At buf 12 = offset at *
  generalize u16At buf 14 = length at *
  have hslice : ((buf.drop (20 + offset)).take length).length = length := by
    rw [List.length_take, List.length_drop]
    omega
  refine ⟨units ((buf.drop (20 + offset)).take length), buf.take 20, (buf.drop 20).take offset,
    buf.drop (20 + offset + 2 * (length / 2)), ?_, (Except.ok.inj h).symm⟩
  constructor
  · have hrest : buf.drop (20 + offset + 2 * (length / 2)) =
        ((buf.drop 20).drop offset).drop (2 * (length / 2)) := by
      rw [List.drop_drop, List.drop_drop, Nat.add_assoc]
    rw [unitBytes_units, hslice, List.take_take, Nat.min_eq_left (by omega), hrest,
      ← List.drop_drop, List.append_assoc, List.take_append_drop, List.append_assoc,
      List.take_append_drop, List.take_append_drop]
  · exact hheader
  · rw [h0]
    exact not_not.mp htag
  · rw [h12, List.length_take, List.length_drop]
    omega
  · rw [List.length_take, List.length_drop]
    omega
  · rw [h14, length_units, hslice]
  · rw [h14, length_units, hslice, List.length_drop]
    omega

/-- A buffer is accepted exactly if it holds some units where its header says, at an even place and
whatever else is in it, and then they are the target; a target that is text comes out as it was put
in. -/
theorem parseSymlinkTarget_iff (buf : List UInt8) (t : String) :
    (parseSymlinkTarget (some buf) = .ok t ↔ ∃ us header before after,
        Holds buf us header before after ∧ t = .ofList (decodeLossy us)) ∧
      ∀ header before after, Holds buf (encode t.toList) header before after →
        parseSymlinkTarget (some buf) = .ok t := by
  refine ⟨⟨holds_of_parseSymlinkTarget, ?_⟩, ?_⟩
  · rintro ⟨us, header, before, after, hholds, rfl⟩
    exact parseSymlinkTarget_of_holds hholds
  · intro header before after hholds
    rw [parseSymlinkTarget_of_holds hholds, decodeLossy_encode, String.ofList_toList]

end Buffers

section Names

variable {name : List UInt16} {s : List Char}

def isSeparator (c : Char) : Bool := c == '/' || c == '\\'

def pieces (s : List Char) : List (List Char) := (s.splitOnP isSeparator).filter (· ≠ [])

theorem slash_separator (c : Char) : (slash c == '/') = isSeparator c := by
  unfold slash isSeparator
  by_cases hc : c = '\\'
  · subst hc
    rfl
  · rw [if_neg hc, beq_eq_false_iff_ne.mpr hc, Bool.or_false]

theorem slash_of_not_separator {c : Char} (h : isSeparator c = false) : slash c = c := by
  unfold slash
  split
  · rename_i hc
    subst hc
    cases h
  · rfl

theorem splitOn_slash (s : List Char) : (s.map slash).splitOn '/' = s.splitOnP isSeparator := by
  induction s with
  | nil => rfl
  | cons c s ih =>
    rw [List.map_cons, List.splitOn_cons_eq_if_modifyHead, List.splitOnP_cons_eq_if_modifyHead,
      slash_separator, ih]
    cases hc : isSeparator c with
    | true => rfl
    | false => rw [slash_of_not_separator hc]

theorem segments_rooted (s : List Char) :
    segments (.ofList ('/' :: s)) = (s.splitOn '/').filter (· ≠ []) := by
  rw [segments, String.toList_ofList, List.splitOn_cons_eq_if_modifyHead, if_pos (by rfl),
    List.filter_cons_of_neg (by simp)]

theorem components_winfsp (h : decode name = some s) :
    ∃ p, winfspPathToPathbuf name = .ok p ∧
      components p = .rootDir :: ((pieces s).map component).filter (· ≠ .curDir) := by
  have hrooted : ∀ l : List Char, components (.ofList ('/' :: l)) =
      .rootDir :: (((l.splitOn '/').filter (· ≠ [])).map component).filter (· ≠ .curDir) := by
    intro l
    rw [components, segments_rooted, String.toList_ofList]
    exact if_pos rfl
  have hpieces : pieces s = ((s.map slash).splitOn '/').filter (· ≠ []) := by
    rw [pieces, splitOn_slash]
  unfold winfspPathToPathbuf
  rw [h, hpieces]
  dsimp only
  generalize s.map slash = l
  split
  · rename_i hroot
    rcases hroot with rfl | rfl
    · exact ⟨_, rfl, rfl⟩
    · exact ⟨_, rfl, rfl⟩
  · split
    · rename_i hhead
      refine ⟨_, rfl, ?_⟩
      obtain ⟨l, rfl⟩ : ∃ rest, l = '/' :: rest := by
        cases l with
        | nil => cases hhead
        | cons c rest => exact ⟨rest, by rw [Option.some.inj hhead]⟩
      rw [hrooted, List.splitOn_cons_eq_if_modifyHead, if_pos (by rfl),
        List.filter_cons_of_neg (by simp)]
    · exact ⟨_, rfl, hrooted l⟩

theorem winfsp_refused (h : decode name = none) :
    winfspPathToPathbuf name = .error .invalidInput := by
  rw [winfspPathToPathbuf, h]

end Names

end WindowsNames
