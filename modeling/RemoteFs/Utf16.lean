import Mathlib.Data.List.Basic

/-! # UTF-16

A character that needs more than 16 bits is written as a high surrogate and a low one. Units in
which a surrogate stands alone are no text. -/
namespace Utf16

def isHigh (u : UInt16) : Bool := 0xD800 ≤ u.toNat && u.toNat < 0xDC00

def isLow (u : UInt16) : Bool := 0xDC00 ≤ u.toNat && u.toNat < 0xE000

def encodeChar (c : Char) : List UInt16 :=
  if c.toNat < 0x10000 then [.ofNat c.toNat]
  else [.ofNat (0xD800 + (c.toNat - 0x10000) / 0x400),
    .ofNat (0xDC00 + (c.toNat - 0x10000) % 0x400)]

def encode (s : List Char) : List UInt16 := s.flatMap encodeChar

def joined (high low : UInt16) : Char :=
  .ofNat (0x10000 + (high.toNat - 0xD800) * 0x400 + (low.toNat - 0xDC00))

def decode : List UInt16 → Option (List Char)
  | [] => some []
  | u :: us =>
    if isHigh u then
      match us with
      | [] => none
      | v :: vs => if isLow v then (decode vs).map (joined u v :: ·) else none
    else if isLow u then none
    else (decode us).map (Char.ofNat u.toNat :: ·)

section RoundTrip

variable {c : Char} {us : List UInt16}

@[simp] theorem encode_cons (c : Char) (s : List Char) :
    encode (c :: s) = encodeChar c ++ encode s := rfl

theorem unit_toNat {n : ℕ} (h : n < 0x10000) : (UInt16.ofNat n).toNat = n := by
  rw [UInt16.toNat_ofNat']
  exact Nat.mod_eq_of_lt h

theorem char_range (c : Char) : c.toNat < 0xD800 ∨ 0xDFFF < c.toNat ∧ c.toNat < 0x110000 :=
  c.valid

theorem decode_narrow (h : c.toNat < 0x10000) :
    decode (encodeChar c ++ us) = (decode us).map (c :: ·) := by
  have hunit := unit_toNat h
  have hrange := char_range c
  have hhigh : isHigh (.ofNat c.toNat) = false := by
    rw [isHigh, hunit, Bool.and_eq_false_iff, decide_eq_false_iff_not, decide_eq_false_iff_not]
    omega
  have hlow : isLow (.ofNat c.toNat) = false := by
    rw [isLow, hunit, Bool.and_eq_false_iff, decide_eq_false_iff_not, decide_eq_false_iff_not]
    omega
  rw [encodeChar, if_pos h, List.singleton_append, decode.eq_def]
  dsimp only
  rw [hhigh, hlow, hunit, Char.ofNat_toNat]
  rfl

theorem decode_wide (h : 0x10000 ≤ c.toNat) :
    decode (encodeChar c ++ us) = (decode us).map (c :: ·) := by
  obtain ⟨n, hn⟩ : ∃ n, c.toNat = 0x10000 + n := Nat.exists_eq_add_of_le h
  have hrange : n < 0x100000 := by
    have := char_range c
    omega
  have hu : (UInt16.ofNat (0xD800 + n / 0x400)).toNat = 0xD800 + n / 0x400 :=
    unit_toNat (by omega)
  have hv : (UInt16.ofNat (0xDC00 + n % 0x400)).toNat = 0xDC00 + n % 0x400 :=
    unit_toNat (by omega)
  have hhigh : isHigh (.ofNat (0xD800 + n / 0x400)) = true := by
    rw [isHigh, hu, Bool.and_eq_true, decide_eq_true_iff, decide_eq_true_iff]
    omega
  have hlow : isLow (.ofNat (0xDC00 + n % 0x400)) = true := by
    rw [isLow, hv, Bool.and_eq_true, decide_eq_true_iff, decide_eq_true_iff]
    omega
  have hjoined : joined (.ofNat (0xD800 + n / 0x400)) (.ofNat (0xDC00 + n % 0x400)) = c := by
    rw [joined, hu, hv, show 0x10000 + (0xD800 + n / 0x400 - 0xD800) * 0x400 +
      (0xDC00 + n % 0x400 - 0xDC00) = c.toNat by omega, Char.ofNat_toNat]
  rw [encodeChar, if_neg (by omega), hn, Nat.add_sub_cancel_left, List.cons_append,
    List.singleton_append, decode, if_pos hhigh, if_pos hlow, hjoined]

theorem decode_encodeChar (c : Char) (us : List UInt16) :
    decode (encodeChar c ++ us) = (decode us).map (c :: ·) := by
  rcases Nat.lt_or_ge c.toNat 0x10000 with h | h
  · exact decode_narrow h
  · exact decode_wide h

theorem decode_encode (s : List Char) : decode (encode s) = some s := by
  induction s with
  | nil => rfl
  | cons c s ih => rw [encode_cons, decode_encodeChar, ih, Option.map_some]

end RoundTrip

/-! Units that are no text -/

def replacement : Char := Char.ofNat 0xFFFD

/-- A surrogate that stands alone is replaced. -/
def decodeLossy : List UInt16 → List Char
  | [] => []
  | u :: us =>
    if isHigh u then
      match us with
      | [] => [replacement]
      | v :: vs =>
        if isLow v then joined u v :: decodeLossy vs else replacement :: decodeLossy (v :: vs)
    else if isLow u then replacement :: decodeLossy us
    else Char.ofNat u.toNat :: decodeLossy us

/-- Nothing is replaced in a text. -/
theorem decodeLossy_of_decode {us : List UInt16} {s : List Char} (h : decode us = some s) :
    decodeLossy us = s := by
  fun_induction decode us generalizing s with
  | case1 =>
    obtain rfl := Option.some.inj h
    rfl
  | case2 => cases h
  | case3 u hu v vs hv ih =>
    obtain ⟨t, ht, rfl⟩ := Option.map_eq_some_iff.mp h
    rw [decodeLossy, if_pos hu, if_pos hv, ih ht]
  | case4 => cases h
  | case5 => cases h
  | case6 u us hu hl ih =>
    obtain ⟨t, ht, rfl⟩ := Option.map_eq_some_iff.mp h
    rw [decodeLossy.eq_def]
    dsimp only
    rw [if_neg hu, if_neg hl, ih ht]

theorem decodeLossy_encode (s : List Char) : decodeLossy (encode s) = s :=
  decodeLossy_of_decode (decode_encode s)

/-- A surrogate alone is no text. -/
example : decode [0xD800, 0x61] = none := rfl

end Utf16
