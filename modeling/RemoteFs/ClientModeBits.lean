import RemoteFs.ClientAttributes
import Mathlib.Data.BitVec
import Mathlib.Tactic.IntervalCases

/-! # Types, permissions and flags as the kernel's numbers

The conversions of the client with the constants of Linux. Some flags are more than one bit, and
share a bit with another flag. -/
namespace ClientModeBits

open ClientAttributes

abbrev Word := BitVec 32

/-- `value & flag != 0` -/
def has (value flag : Word) : Bool := value &&& flag != 0#32

def bits (set : Bool) (flag : Word) : Word := if set then flag else 0#32

namespace FileType

def sIfmt : Word := 0o170000

def fromTarget : FileType → Word
  | .namedPipe => 0o010000
  | .charDevice => 0o020000
  | .blockDevice => 0o060000
  | .directory => 0o040000
  | .regularFile => 0o100000
  | .symlink => 0o120000
  | .socket => 0o140000

/-- Any other type is a `ConversionFailed`. -/
def tryToTarget (value : Word) : Option FileType :=
  let kind := value &&& sIfmt
  if kind = 0o010000 then some .namedPipe
  else if kind = 0o020000 then some .charDevice
  else if kind = 0o060000 then some .blockDevice
  else if kind = 0o040000 then some .directory
  else if kind = 0o100000 then some .regularFile
  else if kind = 0o120000 then some .symlink
  else if kind = 0o140000 then some .socket
  else none

end FileType

structure PermissionType where
  read : Bool
  write : Bool
  execute : Bool
  deriving DecidableEq, Repr

namespace PermissionType

def rOk : Word := 4
def wOk : Word := 2
def xOk : Word := 1

def fromTarget (p : PermissionType) : Word :=
  bits p.read rOk ||| bits p.write wOk ||| bits p.execute xOk

def tryToTarget (value : Word) : PermissionType :=
  ⟨has value rOk, has value wOk, has value xOk⟩

end PermissionType

structure Permission where
  user : PermissionType
  group : PermissionType
  other : PermissionType
  deriving DecidableEq, Repr

namespace Permission

def fromTarget (p : Permission) : Word :=
  p.user.fromTarget <<< 6 ||| p.group.fromTarget <<< 3 ||| p.other.fromTarget

/-- The shifts are those of an `i32`. -/
def tryToTarget (value : Word) : Permission :=
  ⟨.tryToTarget (value.sshiftRight 6), .tryToTarget (value.sshiftRight 3), .tryToTarget value⟩

end Permission

structure Flags where
  readonly : Bool
  writeonly : Bool
  readwrite : Bool
  create : Bool
  excl : Bool
  trunc : Bool
  append : Bool
  nonblock : Bool
  noctt : Bool
  sync : Bool
  dsync : Bool
  directory : Bool
  nofollow : Bool
  cloexec : Bool
  tmpfile : Bool
  asyncIo : Bool
  direct : Bool
  noatime : Bool
  path : Bool
  deriving DecidableEq, Repr

namespace Flags

def oRdonly : Word := 0o0
def oWronly : Word := 0o1
def oRdwr : Word := 0o2
def oAccmode : Word := 0o3
def oCreat : Word := 0o100
def oExcl : Word := 0o200
def oNoctty : Word := 0o400
def oTrunc : Word := 0o1000
def oAppend : Word := 0o2000
def oNonblock : Word := 0o4000
def oDsync : Word := 0o10000
def oAsync : Word := 0o20000
def oDirect : Word := 0o40000
def oDirectory : Word := 0o200000
def oNofollow : Word := 0o400000
def oNoatime : Word := 0o1000000
def oCloexec : Word := 0o2000000
def oSync : Word := 0o4010000
def oPath : Word := 0o10000000
def oTmpfile : Word := 0o20200000

def fromTarget (f : Flags) : Word :=
  bits f.readonly oRdonly ||| bits f.writeonly oWronly ||| bits f.readwrite oRdwr |||
    bits f.create oCreat ||| bits f.excl oExcl ||| bits f.trunc oTrunc |||
    bits f.append oAppend ||| bits f.nonblock oNonblock ||| bits f.noctt oNoctty |||
    bits f.sync oSync ||| bits f.dsync oDsync ||| bits f.directory oDirectory |||
    bits f.nofollow oNofollow ||| bits f.cloexec oCloexec ||| bits f.tmpfile oTmpfile |||
    bits f.asyncIo oAsync ||| bits f.direct oDirect ||| bits f.noatime oNoatime |||
    bits f.path oPath

def tryToTarget (value : Word) : Flags :=
  let accessMode := value &&& oAccmode
  { readonly := accessMode == oRdonly
    writeonly := accessMode == oWronly
    readwrite := accessMode == oRdwr
    create := has value oCreat
    excl := has value oExcl
    trunc := has value oTrunc
    append := has value oAppend
    nonblock := has value oNonblock
    noctt := has value oNoctty
    sync := has value oSync
    dsync := has value oDsync
    directory := has value oDirectory
    nofollow := has value oNofollow
    cloexec := has value oCloexec
    tmpfile := has value oTmpfile
    asyncIo := has value oAsync
    direct := has value oDirect
    noatime := has value oNoatime
    path := has value oPath }

end Flags

theorem has_or (v f g : Word) : has v (f ||| g) = (has v f || has v g) := by
  unfold has
  rw [Bool.eq_iff_iff, BitVec.and_or_distrib_left]
  simp only [bne_iff_ne, ne_eq, Bool.or_eq_true, BitVec.or_eq_zero_iff]
  tauto

theorem has_twoPow (v : Word) (k : ℕ) : has v (BitVec.twoPow 32 k) = v.getLsbD k := by
  unfold has
  rw [BitVec.and_twoPow]
  cases h : v.getLsbD k
  · simp
  · have hk := BitVec.lt_of_getLsbD h
    simp only [↓reduceIte, bne_iff_ne, ne_eq]
    intro hz
    have := congrArg (fun x => x.getLsbD k) hz
    simp [hk] at this

theorem getLsbD_bits (b : Bool) (f : Word) (i : ℕ) : (bits b f).getLsbD i = (b && f.getLsbD i) := by
  cases b <;> simp [bits]

namespace FileType

/-- The type bits decide, and the others are left aside. -/
theorem tryToTarget_eq_some (v : Word) (k : FileType) :
    tryToTarget v = some k ↔ v &&& sIfmt = fromTarget k := by
  unfold tryToTarget
  dsimp only
  generalize v &&& sIfmt = kind
  constructor
  · intro h
    split_ifs at h with h₁ h₂ h₃ h₄ h₅ h₆ h₇
    all_goals cases h; assumption
  · rintro rfl
    cases k <;> rfl

end FileType

namespace Permission

theorem tryToTarget_eq (v : Word) : tryToTarget v =
    ⟨⟨v.getLsbD 8, v.getLsbD 7, v.getLsbD 6⟩, ⟨v.getLsbD 5, v.getLsbD 4, v.getLsbD 3⟩,
      ⟨v.getLsbD 2, v.getLsbD 1, v.getLsbD 0⟩⟩ := by
  have hr : PermissionType.rOk = BitVec.twoPow 32 2 := by decide
  have hw : PermissionType.wOk = BitVec.twoPow 32 1 := by decide
  have hx : PermissionType.xOk = BitVec.twoPow 32 0 := by decide
  simp +decide only [tryToTarget, PermissionType.tryToTarget, hr, hw, hx, has_twoPow,
    BitVec.getLsbD_sshiftRight, ↓reduceIte, Bool.true_and, Nat.reduceAdd, decide_false,
    Bool.not_false]

def bit (p : Permission) : ℕ → Bool
  | 0 => p.other.execute
  | 1 => p.other.write
  | 2 => p.other.read
  | 3 => p.group.execute
  | 4 => p.group.write
  | 5 => p.group.read
  | 6 => p.user.execute
  | 7 => p.user.write
  | 8 => p.user.read
  | _ => false

theorem getLsbD_fromTarget (p : Permission) {i : ℕ} (h : i < 32) :
    p.fromTarget.getLsbD i = p.bit i := by
  unfold fromTarget PermissionType.fromTarget
  simp only [BitVec.getLsbD_or, BitVec.getLsbD_shiftLeft, getLsbD_bits]
  interval_cases i <;>
    simp +decide [PermissionType.rOk, PermissionType.wOk, PermissionType.xOk, bit]

theorem tryToTarget_fromTarget (p : Permission) : tryToTarget p.fromTarget = p := by
  rw [tryToTarget_eq]
  simp (disch := decide) only [getLsbD_fromTarget, bit]

theorem fromTarget_tryToTarget (v : Word) : (tryToTarget v).fromTarget = v &&& 0o777 := by
  refine BitVec.eq_of_getLsbD_eq fun i hi => ?_
  rw [getLsbD_fromTarget _ hi, tryToTarget_eq, BitVec.getLsbD_and]
  interval_cases i <;> simp +decide [bit]

end Permission

namespace Flags

def bit (f : Flags) : ℕ → Bool
  | 0 => f.writeonly
  | 1 => f.readwrite
  | 6 => f.create
  | 7 => f.excl
  | 8 => f.noctt
  | 9 => f.trunc
  | 10 => f.append
  | 11 => f.nonblock
  | 12 => f.sync || f.dsync
  | 13 => f.asyncIo
  | 14 => f.direct
  | 16 => f.directory || f.tmpfile
  | 17 => f.nofollow
  | 18 => f.noatime
  | 19 => f.cloexec
  | 20 => f.sync
  | 21 => f.path
  | 22 => f.tmpfile
  | _ => false

theorem getLsbD_fromTarget (f : Flags) {i : ℕ} (h : i < 32) :
    f.fromTarget.getLsbD i = f.bit i := by
  unfold fromTarget
  simp only [BitVec.getLsbD_or, getLsbD_bits]
  interval_cases i <;>
    simp +decide [oRdonly, oWronly, oRdwr, oCreat, oExcl, oTrunc, oAppend, oNonblock, oNoctty,
      oSync, oDsync, oDirectory, oNofollow, oCloexec, oTmpfile, oAsync, oDirect, oNoatime, oPath,
      bit]

theorem and_oAccmode (v : Word) :
    v &&& oAccmode = bits (v.getLsbD 0) oWronly ||| bits (v.getLsbD 1) oRdwr := by
  rw [show oAccmode = BitVec.twoPow 32 0 ||| BitVec.twoPow 32 1 by decide,
    BitVec.and_or_distrib_left, BitVec.and_twoPow, BitVec.and_twoPow]
  rfl

theorem tryToTarget_eq (v : Word) : tryToTarget v =
    { readonly := !v.getLsbD 0 && !v.getLsbD 1
      writeonly := v.getLsbD 0 && !v.getLsbD 1
      readwrite := !v.getLsbD 0 && v.getLsbD 1
      create := v.getLsbD 6
      excl := v.getLsbD 7
      trunc := v.getLsbD 9
      append := v.getLsbD 10
      nonblock := v.getLsbD 11
      noctt := v.getLsbD 8
      sync := v.getLsbD 12 || v.getLsbD 20
      dsync := v.getLsbD 12
      directory := v.getLsbD 16
      nofollow := v.getLsbD 17
      cloexec := v.getLsbD 19
      tmpfile := v.getLsbD 16 || v.getLsbD 22
      asyncIo := v.getLsbD 13
      direct := v.getLsbD 14
      noatime := v.getLsbD 18
      path := v.getLsbD 21 } := by
  have hmode : (v &&& oAccmode == oRdonly) = (!v.getLsbD 0 && !v.getLsbD 1) ∧
      (v &&& oAccmode == oWronly) = (v.getLsbD 0 && !v.getLsbD 1) ∧
      (v &&& oAccmode == oRdwr) = (!v.getLsbD 0 && v.getLsbD 1) := by
    rw [and_oAccmode]
    cases v.getLsbD 0 <;> cases v.getLsbD 1 <;> decide
  have hsync : has v oSync = (v.getLsbD 12 || v.getLsbD 20) := by
    rw [show oSync = BitVec.twoPow 32 12 ||| BitVec.twoPow 32 20 by decide, has_or, has_twoPow,
      has_twoPow]
  have htmpfile : has v oTmpfile = (v.getLsbD 16 || v.getLsbD 22) := by
    rw [show oTmpfile = BitVec.twoPow 32 16 ||| BitVec.twoPow 32 22 by decide, has_or, has_twoPow,
      has_twoPow]
  unfold tryToTarget
  dsimp only
  rw [hmode.1, hmode.2.1, hmode.2.2, hsync, htmpfile]
  simp only [← has_twoPow]
  rfl

/-- One access mode, and each flag of two bits beside the one that it has a bit of. -/
structure Consistent (f : Flags) : Prop where
  readonly : f.readonly = (!f.writeonly && !f.readwrite)
  one : (f.writeonly && f.readwrite) = false
  synced : f.sync = f.dsync
  temporary : f.tmpfile = f.directory

def known : Word :=
  oAccmode ||| oCreat ||| oExcl ||| oNoctty ||| oTrunc ||| oAppend ||| oNonblock ||| oSync |||
    oAsync ||| oDirect ||| oTmpfile ||| oNofollow ||| oNoatime ||| oCloexec ||| oPath

/-- A word that says nothing but what the flags say. -/
structure Plain (v : Word) : Prop where
  known : v &&& ~~~known = 0#32
  access : v &&& oAccmode ≠ oAccmode
  synced : has v (oSync ^^^ oDsync) = has v oDsync
  temporary : has v (oTmpfile ^^^ oDirectory) = has v oDirectory

theorem one_access (ro wo rw : Bool) :
    ((!wo && !rw) = ro ∧ (wo && !rw) = wo ∧ (!wo && rw) = rw) ↔
      ro = (!wo && !rw) ∧ (wo && rw) = false := by
  decide +revert

theorem shared_bit (two one : Bool) :
    ((two || one) || two) = two ∧ (two || one) = one ↔ two = one := by
  decide +revert

theorem tryToTarget_fromTarget (f : Flags) : tryToTarget f.fromTarget = f ↔ Consistent f := by
  have hc : Consistent f ↔ (f.readonly = (!f.writeonly && !f.readwrite) ∧
      (f.writeonly && f.readwrite) = false) ∧ f.sync = f.dsync ∧ f.tmpfile = f.directory :=
    ⟨fun ⟨a, b, c, d⟩ => ⟨⟨a, b⟩, c, d⟩, fun ⟨⟨a, b⟩, c, d⟩ => ⟨a, b, c, d⟩⟩
  rw [hc, ← one_access, ← shared_bit f.sync, ← shared_bit f.tmpfile, tryToTarget_eq]
  simp (disch := decide) only [getLsbD_fromTarget, bit]
  obtain ⟨ro, wo, rw, _, _, _, _, _, _, sync, dsync, directory, _, _, tmpfile, _, _, _, _⟩ := f
  simp only [Flags.mk.injEq, true_and, and_true, Bool.or_comm directory]
  tauto

theorem plain_iff (v : Word) : Plain v ↔
    (∀ i < 32, known.getLsbD i = false → v.getLsbD i = false) ∧
      (v.getLsbD 0 && v.getLsbD 1) = false ∧ v.getLsbD 20 = v.getLsbD 12 ∧
      v.getLsbD 22 = v.getLsbD 16 := by
  have hknown : v &&& ~~~known = 0#32 ↔
      ∀ i < 32, known.getLsbD i = false → v.getLsbD i = false := by
    rw [BitVec.eq_of_getLsbD_eq_iff]
    refine forall_congr' fun i => forall_congr' fun hi => ?_
    simp only [BitVec.getLsbD_and, BitVec.getLsbD_not, hi, decide_true, Bool.true_and,
      BitVec.getLsbD_zero, Bool.and_eq_false_iff, Bool.not_eq_false_eq_eq_true]
    cases known.getLsbD i <;> simp
  have haccess : v &&& oAccmode ≠ oAccmode ↔ (v.getLsbD 0 && v.getLsbD 1) = false := by
    rw [and_oAccmode]
    cases v.getLsbD 0 <;> cases v.getLsbD 1 <;> decide
  have hbit (k : ℕ) {f : Word} (h : f = BitVec.twoPow 32 k) : has v f = v.getLsbD k := by
    rw [h, has_twoPow]
  rw [← hknown, ← haccess, ← hbit 20 (show oSync ^^^ oDsync = _ by decide),
    ← hbit 12 (show oDsync = _ by decide), ← hbit 22 (show oTmpfile ^^^ oDirectory = _ by decide),
    ← hbit 16 (show oDirectory = _ by decide)]
  exact ⟨fun ⟨a, b, c, d⟩ => ⟨a, b, c, d⟩, fun ⟨a, b, c, d⟩ => ⟨a, b, c, d⟩⟩

def restored (v : Word) : ℕ → Bool
  | 0 => v.getLsbD 0 && !v.getLsbD 1
  | 1 => !v.getLsbD 0 && v.getLsbD 1
  | 12 => v.getLsbD 12 || v.getLsbD 20
  | 16 => v.getLsbD 16 || v.getLsbD 22
  | 20 => v.getLsbD 12 || v.getLsbD 20
  | 22 => v.getLsbD 16 || v.getLsbD 22
  | i => known.getLsbD i && v.getLsbD i

theorem getLsbD_restored (v : Word) {i : ℕ} (h : i < 32) :
    (tryToTarget v).fromTarget.getLsbD i = restored v i := by
  rw [getLsbD_fromTarget _ h, tryToTarget_eq]
  have hknown : known = 0x7f7fc3#32 := by decide
  interval_cases i <;> simp +decide [bit, restored, hknown]; tauto

theorem restored_unknown {v : Word} {i : ℕ} (h : known.getLsbD i = false) :
    restored v i = false := by
  unfold restored
  split
  all_goals first | exact absurd h (by decide) | rw [h, Bool.false_and]

theorem fromTarget_tryToTarget (v : Word) : (tryToTarget v).fromTarget = v ↔ Plain v := by
  rw [plain_iff, BitVec.eq_of_getLsbD_eq_iff]
  constructor
  · intro h
    have hbit : ∀ i < 32, restored v i = v.getLsbD i := fun i hi => by
      rw [← getLsbD_restored v hi, h i hi]
    refine ⟨fun i hi hk => ?_, ?_, ?_, ?_⟩
    · rw [← hbit i hi, restored_unknown hk]
    · have h₀ := hbit 0 (by decide)
      have h₁ := hbit 1 (by decide)
      simp only [restored] at h₀ h₁
      grind
    · have h₁ := hbit 12 (by decide)
      have h₂ := hbit 20 (by decide)
      exact h₂.symm.trans h₁
    · exact (hbit 22 (by decide)).symm.trans (hbit 16 (by decide))
  · rintro ⟨hk, ha, hs, ht⟩ i hi
    rw [getLsbD_restored v hi]
    have hplain : (known.getLsbD i && v.getLsbD i) = v.getLsbD i := by
      cases hki : known.getLsbD i with
      | false => rw [hk i hi hki, Bool.and_false]
      | true => rw [Bool.true_and]
    unfold restored
    split <;> grind

/-- Flags and words are each other's images exactly where neither says more than the other: a
directory is taken for a temporary file, and synchronized data for synchronized everything. -/
theorem conversions_inverse_iff :
    (∀ f : Flags, tryToTarget f.fromTarget = f ↔ Consistent f) ∧
      ∀ v : Word, (tryToTarget v).fromTarget = v ↔ Plain v :=
  ⟨tryToTarget_fromTarget, fromTarget_tryToTarget⟩

end Flags
end ClientModeBits
