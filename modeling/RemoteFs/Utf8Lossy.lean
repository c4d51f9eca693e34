import Mathlib.Data.List.Basic
import Mathlib.Data.List.Count

/-! # Reading UTF-8 that may be broken

Where the bytes begin no character, the longest part of them that could have begun one is read as
one replacement character. -/
namespace Utf8Lossy

def utf8 (s : List Char) : List UInt8 := s.flatMap String.utf8EncodeChar

@[simp] theorem utf8_cons (c : Char) (s : List Char) :
    utf8 (c :: s) = String.utf8EncodeChar c ++ utf8 s := rfl

def decodeChar (bytes : List UInt8) : Option Char := bytes.toByteArray.utf8DecodeChar? 0

theorem decodeChar_encode (c : Char) (bytes : List UInt8) :
    decodeChar (String.utf8EncodeChar c ++ bytes) = some c := by
  unfold decodeChar
  rw [List.toByteArray_append]
  exact ByteArray.utf8DecodeChar?_utf8EncodeChar_append

theorem decodeChar_begins {bytes : List UInt8} {c : Char} (h : decodeChar bytes = some c) :
    ∃ rest, bytes = String.utf8EncodeChar c ++ rest := by
  obtain ⟨rest, hrest⟩ := ByteArray.exists_of_utf8DecodeChar?_eq_some h
  have hlist := congrArg (fun b => b.data.toList) hrest
  simp only [ByteArray.data_append, Array.toList_append, List.data_toByteArray] at hlist
  exact ⟨rest.data.toList, hlist⟩

/-- After some first bytes fewer bytes may stand second than elsewhere. -/
def second (first b : UInt8) : Bool :=
  if first = 0xE0 then 0xA0 ≤ b && b ≤ 0xBF
  else if first = 0xED then 0x80 ≤ b && b ≤ 0x9F
  else if first = 0xF0 then 0x90 ≤ b && b ≤ 0xBF
  else if first = 0xF4 then 0x80 ≤ b && b ≤ 0x8F
  else 0x80 ≤ b && b ≤ 0xBF

/-- Of bytes that begin no character, how many are read as one replacement character. -/
def brokenLength : List UInt8 → ℕ
  | first :: b :: rest =>
    if 0xE0 ≤ first ∧ first ≤ 0xF4 ∧ second first b then
      match rest with
      | c :: _ => if 0xF0 ≤ first ∧ 0x80 ≤ c ∧ c ≤ 0xBF then 3 else 2
      | [] => 2
    else 1
  | _ => 1

def replacement : Char := Char.ofNat 0xFFFD

def lossyFrom : ℕ → List UInt8 → List Char
  | _, [] => []
  | skip + 1, _ :: bytes => lossyFrom skip bytes
  | 0, b :: bytes =>
    match decodeChar (b :: bytes) with
    | some c => c :: lossyFrom (c.utf8Size - 1) bytes
    | none => replacement :: lossyFrom (brokenLength (b :: bytes) - 1) bytes

def fromUtf8Lossy (bytes : List UInt8) : List Char := lossyFrom 0 bytes

theorem lossyFrom_drop (skip : ℕ) (bytes : List UInt8) :
    lossyFrom skip bytes = fromUtf8Lossy (bytes.drop skip) := by
  induction skip generalizing bytes with
  | zero => rfl
  | succ skip ih =>
    cases bytes with
    | nil => rfl
    | cons b bytes => exact ih bytes

theorem fromUtf8Lossy_char (c : Char) (bytes : List UInt8) :
    fromUtf8Lossy (String.utf8EncodeChar c ++ bytes) = c :: fromUtf8Lossy bytes := by
  have hsize : (String.utf8EncodeChar c).length = c.utf8Size := String.length_utf8EncodeChar c
  have hfirst := decodeChar_encode c bytes
  cases hencoded : String.utf8EncodeChar c with
  | nil =>
    have hpos := c.utf8Size_pos
    rw [hencoded] at hsize
    simp only [List.length_nil] at hsize
    omega
  | cons b others =>
    rw [hencoded, List.cons_append] at hfirst
    rw [hencoded, List.length_cons] at hsize
    rw [List.cons_append, fromUtf8Lossy, lossyFrom, hfirst]
    dsimp only
    rw [lossyFrom_drop, ← hsize, Nat.add_sub_cancel, List.drop_left]

theorem fromUtf8Lossy_utf8 (s : List Char) : fromUtf8Lossy (utf8 s) = s := by
  induction s with
  | nil => rfl
  | cons c s ih => rw [utf8_cons, fromUtf8Lossy_char, ih]

/-! What is ASCII in the text comes from the bytes that are. -/

def ascii (c : Char) : Bool := c.toNat < 128

def asciiByte (b : UInt8) : Bool := b < 128

theorem asciiByte_ofNat {n : ℕ} (h : n < 256) : asciiByte (UInt8.ofNat n) = decide (n < 128) := by
  have htoNat : (UInt8.ofNat n).toNat = n := UInt8.toNat_ofNat_of_lt' h
  exact decide_eq_decide.mpr (by rw [UInt8.lt_iff_toNat_lt, htoNat]; rfl)

theorem high_byte {n : ℕ} (hlow : 128 ≤ n) (hhigh : n < 256) : ¬asciiByte (UInt8.ofNat n) := by
  rw [asciiByte_ofNat hhigh, decide_eq_true_iff]
  omega

theorem ascii_encode (c : Char) :
    (String.utf8EncodeChar c).countP asciiByte = [c].countP ascii := by
  have hc : ascii c = decide (c.val.toNat ≤ 0x7f) := decide_eq_decide.mpr Nat.lt_succ_iff
  rw [List.countP_singleton, hc]
  unfold String.utf8EncodeChar
  generalize c.val.toNat = v
  by_cases h : v ≤ 0x7f
  · have hv : asciiByte (UInt8.ofNat v) := by
      rw [asciiByte_ofNat (by omega), decide_eq_true_iff]
      omega
    simp only [h, if_true, decide_true, List.countP_singleton, hv]
  · -- every byte of a longer encoding has its high bit set
    simp only [h, if_false, decide_false, Bool.false_eq_true]
    rw [List.countP_eq_zero]
    intro b hb
    split_ifs at hb <;> simp only [List.mem_cons, List.not_mem_nil, or_false] at hb
    · obtain rfl | rfl := hb <;> exact high_byte (by omega) (by omega)
    · obtain rfl | rfl | rfl := hb <;> exact high_byte (by omega) (by omega)
    · obtain rfl | rfl | rfl | rfl := hb <;> exact high_byte (by omega) (by omega)

theorem ascii_utf8 (s : List Char) : (utf8 s).countP asciiByte = s.countP ascii := by
  induction s with
  | nil => rfl
  | cons c s ih =>
    rw [utf8_cons, List.countP_append, ascii_encode, ih, ← List.countP_append,
      List.singleton_append]

theorem ascii_lossyFrom (skip : ℕ) (bytes : List UInt8) :
    (lossyFrom skip bytes).countP ascii ≤ (bytes.drop skip).countP asciiByte := by
  fun_induction lossyFrom skip bytes with
  | case1 skip => simp
  | case2 skip b bytes ih => exact ih
  | case3 b bytes c hc ih =>
    obtain ⟨rest, hrest⟩ := decodeChar_begins hc
    have hdrop : bytes.drop (c.utf8Size - 1) = rest := by
      have hpos := c.utf8Size_pos
      have hlen : (String.utf8EncodeChar c).length = c.utf8Size := String.length_utf8EncodeChar c
      calc bytes.drop (c.utf8Size - 1)
          = (b :: bytes).drop (c.utf8Size - 1 + 1) := rfl
        _ = (String.utf8EncodeChar c ++ rest).drop (String.utf8EncodeChar c).length := by
          rw [hrest, hlen, Nat.sub_add_cancel hpos]
        _ = rest := List.drop_left
    rw [hdrop] at ih
    rw [List.drop_zero, hrest, List.countP_append, ascii_encode, ← List.singleton_append,
      List.countP_append]
    exact Nat.add_le_add_left ih _
  | case4 b bytes hnone ih =>
    have hreplacement : ascii replacement = false := by decide
    rw [List.countP_cons_of_neg (by simp [hreplacement])]
    calc (lossyFrom (brokenLength (b :: bytes) - 1) bytes).countP ascii
        ≤ (bytes.drop (brokenLength (b :: bytes) - 1)).countP asciiByte := ih
      _ ≤ bytes.countP asciiByte := (List.drop_sublist _ _).countP_le
      _ ≤ (b :: bytes).countP asciiByte := (List.sublist_cons_self b bytes).countP_le

theorem ascii_fromUtf8Lossy (bytes : List UInt8) :
    (fromUtf8Lossy bytes).countP ascii ≤ bytes.countP asciiByte :=
  ascii_lossyFrom 0 bytes

end Utf8Lossy
